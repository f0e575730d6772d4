import ScriptHost.ScriptRegistry

/-!
# ScriptHost.Proofs.Registrations

A script registry keeps the first script for each hash. `Stores` says which scripts it holds: the
keys of the table are the hashes written backwards in hexadecimal, so that distinct hashes have
distinct keys and the keys come in the order of the hashes read backwards. A registration at a new
hash adds one script to these (`Stores.accept`), any other leaves the registry as it is, and what
is found afterwards depends only on which registration came first (`Stores.mem_added_iff`).
-/

namespace ScriptHost

/-- A script that is to be registered, and where. -/
structure Registration where
  locator : ScriptLocator
  script : Bytes
deriving DecidableEq

/-- The locator gives the hash itself, or an address that the codec reads as it. -/
def ScriptLocator.Names (codec : AddressCodec) (hash : ScriptHash) : ScriptLocator → Prop
  | address text => codec text = .ok hash
  | .hash h => h = hash

instance (codec : AddressCodec) (hash : ScriptHash) : DecidablePred (ScriptLocator.Names codec hash)
  | .address text =>
    decidable_of_iff ((codec text).toOption = some hash) <| by
      cases h : codec text <;> simp [ScriptLocator.Names, h, Except.toOption]
  | .hash h => inferInstanceAs (Decidable (h = hash))

namespace ScriptRegistry

variable {r : ScriptRegistry} {stored : List (ScriptHash × Bytes)} {asked : List Registration}
  {locator : ScriptLocator} {hash : ScriptHash} {script : Bytes}

/-- The registry after registrations are made one after the other. -/
def addAll (r : ScriptRegistry) (asked : List Registration) : ScriptRegistry :=
  asked.foldl (fun r a => (r.add a.locator a.script).2.1) r

/-- The scripts of the registrations that succeed, each with the hash that is answered. -/
def added (r : ScriptRegistry) : List Registration → List (ScriptHash × Bytes)
  | [] => []
  | a :: asked =>
    match r.add a.locator a.script with
    | (.ok hash, r', _) => (hash, a.script) :: r'.added asked
    | (.error _, r', _) => r'.added asked

/-- The script of the first registration for a hash. -/
def firstScript? (r : ScriptRegistry) (asked : List Registration) (hash : ScriptHash) :
    Option Bytes :=
  (asked.find? fun a => a.locator.Names r.codec hash).map (·.script)

/-- A script as it is listed: under the hexadecimal text of its hash read backwards. -/
def entry (e : ScriptHash × Bytes) : String × Bytes := (Text.Hex.encode e.1.reversed, e.2)

/-- The registry holds these scripts and no others, and one for each hash. -/
structure Stores (r : ScriptRegistry) (stored : List (ScriptHash × Bytes)) : Prop where
  distinct : (stored.map (·.1)).Nodup
  listed : ∃ listed : List (ScriptHash × Bytes), listed.Perm stored ∧ r.toList = listed.map entry

theorem stores_empty (codec : AddressCodec) : ({ codec := codec } : ScriptRegistry).Stores [] where
  distinct := List.nodup_nil
  listed := ⟨[], .refl _, rfl⟩

theorem locate_eq_ok_iff : r.locate locator = .ok hash ↔ locator.Names r.codec hash := by
  cases locator with
  | address text => rfl
  | hash h => simp [locate, ScriptLocator.Names]

theorem firstScript?_congr {r' : ScriptRegistry} (h : r'.codec = r.codec) :
    r'.firstScript? = r.firstScript? := by
  funext asked hash
  rw [firstScript?, firstScript?, h]

theorem firstScript?_cons (r : ScriptRegistry) (a : Registration) (asked : List Registration)
    (hash : ScriptHash) :
    r.firstScript? (a :: asked) hash =
      if a.locator.Names r.codec hash then some a.script else r.firstScript? asked hash := by
  by_cases h : a.locator.Names r.codec hash <;> simp [firstScript?, h]

theorem add_unlocated {e : AddressError} (hlocate : r.locate locator = .error e) :
    r.add locator script = (.error (.invalidAddress e), r, []) := by
  simp only [add, hlocate]

namespace Stores

/-! ## What is found -/

theorem get?_key_iff (h : r.Stores stored) {q : Bytes} :
    r.scripts.get? (key q) = some script ↔ ∃ hash, hash.bytes = q ∧ (hash, script) ∈ stored := by
  obtain ⟨listed, hperm, hlist⟩ := h.listed
  have hlist : r.scripts.entries = listed.map entry := hlist
  rw [← Table.mem_entries_iff, hlist, List.mem_map]
  constructor
  · rintro ⟨⟨hash, found⟩, hmem, hentry⟩
    injection hentry with hkey hscript
    exact ⟨hash, key_inj hkey, hscript ▸ hperm.mem_iff.mp hmem⟩
  · rintro ⟨hash, rfl, hmem⟩
    exact ⟨(hash, script), hperm.mem_iff.mpr hmem, rfl⟩

theorem get_iff (h : r.Stores stored) {q : Bytes} :
    r.get q = .ok script ↔ ∃ hash, hash.bytes = q ∧ (hash, script) ∈ stored := by
  rw [← h.get?_key_iff, get]
  cases r.scripts.get? (key q) with
  | none => simp
  | some found => simp

theorem contains_iff (h : r.Stores stored) :
    r.contains hash.bytes = true ↔ hash ∈ stored.map (·.1) := by
  rw [contains, Table.contains, Option.isSome_iff_exists, List.mem_map]
  simp only [h.get?_key_iff]
  constructor
  · rintro ⟨script, found, hbytes, hmem⟩
    exact ⟨(found, script), hmem, ScriptHash.eq_of_bytes_eq hbytes⟩
  · rintro ⟨⟨found, script⟩, hmem, rfl⟩
    exact ⟨script, found, rfl, hmem⟩

/-! ## One registration -/

theorem refuse (h : r.Stores stored) (hlocate : r.locate locator = .ok hash)
    (hmem : hash ∈ stored.map (·.1)) (script : Bytes) :
    r.add locator script = (.error (.duplicateScript (key hash.bytes)), r, []) := by
  have hcontains : r.scripts.contains (key hash.bytes) = true := h.contains_iff.mpr hmem
  simp only [add, hlocate, if_pos hcontains]

theorem accept (h : r.Stores stored) (hlocate : r.locate locator = .ok hash)
    (hmem : hash ∉ stored.map (·.1)) (script : Bytes) :
    ∃ r' log, r.add locator script = (.ok hash, r', log) ∧ r'.codec = r.codec ∧
      r'.Stores (stored ++ [(hash, script)]) := by
  have hcontains : ¬r.scripts.contains (key hash.bytes) = true := mt h.contains_iff.mp hmem
  have hnone : r.scripts.get? (key hash.bytes) = none := by
    simpa [Table.contains] using hcontains
  simp only [add, hlocate, if_neg hcontains]
  refine ⟨_, _, rfl, rfl, ?_, ?_⟩
  · rw [List.map_append, List.nodup_append]
    refine ⟨h.distinct, by simp, ?_⟩
    rintro a ha b hb rfl
    obtain rfl : a = hash := by simpa using hb
    exact hmem ha
  · obtain ⟨listed, hperm, hlist⟩ := h.listed
    obtain ⟨before, after, hinsert, hentries⟩ :=
      r.scripts.exists_entries_insert (key hash.bytes) script
    rw [hnone] at hentries
    obtain ⟨front, back, rfl, rfl, rfl⟩ := List.map_eq_append_iff.mp (hlist.symm.trans hentries)
    refine ⟨front ++ (hash, script) :: back, ?_, ?_⟩
    · exact List.perm_middle.trans ((hperm.cons _).trans (List.perm_append_singleton _ _).symm)
    · rw [toList, hinsert, List.map_append, List.map_cons]
      rfl

/-! ## Runs -/

theorem run (h : r.Stores stored) (asked : List Registration) :
    (r.addAll asked).codec = r.codec ∧ (r.addAll asked).Stores (stored ++ r.added asked) := by
  induction asked generalizing r stored with
  | nil => simpa [addAll, added] using h
  | cons a asked ih =>
    simp only [addAll, List.foldl_cons, added]
    cases hlocate : r.locate a.locator with
    | error e =>
      rw [add_unlocated hlocate]
      exact ih h
    | ok hash =>
      by_cases hmem : hash ∈ stored.map (·.1)
      · rw [h.refuse hlocate hmem]
        exact ih h
      · obtain ⟨r', log, hadd, hcodec, h'⟩ := h.accept hlocate hmem a.script
        rw [hadd, List.append_cons, ← hcodec]
        exact ih h'

/-- Of the registrations for one hash the first succeeds, unless the hash is taken before. -/
theorem mem_added_iff (h : r.Stores stored) (asked : List Registration) :
    (hash, script) ∈ r.added asked ↔
      hash ∉ stored.map (·.1) ∧ r.firstScript? asked hash = some script := by
  induction asked generalizing r stored with
  | nil => simp [added, firstScript?]
  | cons a asked ih =>
    rw [added, firstScript?_cons]
    cases hlocate : r.locate a.locator with
    | error e =>
      have hnames : ¬a.locator.Names r.codec hash := by
        rw [← locate_eq_ok_iff, hlocate]
        nofun
      rw [add_unlocated hlocate, if_neg hnames]
      exact ih h
    | ok first =>
      have hnames : a.locator.Names r.codec hash ↔ first = hash := by
        rw [← locate_eq_ok_iff, hlocate, Except.ok.injEq]
      by_cases hmem : first ∈ stored.map (·.1)
      · rw [h.refuse hlocate hmem]
        by_cases hfirst : first = hash
        · subst hfirst
          simp only [ih h, hmem, not_true_eq_false, false_and]
        · rw [if_neg (mt hnames.mp hfirst)]
          exact ih h
      · obtain ⟨r', log, hadd, hcodec, h'⟩ := h.accept hlocate hmem a.script
        rw [hadd, List.mem_cons, ih h', firstScript?_congr hcodec]
        by_cases hfirst : first = hash
        · subst hfirst
          simp [hnames, hmem, eq_comm]
        · rw [if_neg (mt hnames.mp hfirst)]
          simp [Ne.symm hfirst]

theorem exists_sorted (h : r.Stores stored) :
    ∃ listed : List (ScriptHash × Bytes), listed.Perm stored ∧ r.toList = listed.map entry ∧
      listed.Pairwise fun a b => Bytes.order a.1.reversed b.1.reversed = .lt := by
  obtain ⟨listed, hperm, hlist⟩ := h.listed
  refine ⟨listed, hperm, hlist, ?_⟩
  have hsorted : r.toList.Pairwise fun a b => a.1 < b.1 := r.scripts.sorted
  rw [hlist, List.pairwise_map] at hsorted
  exact hsorted.imp fun hlt => (key_lt_iff _ _).mp hlt

/-- After registrations with an empty registry, an engine finds for each hash what was registered
for it first. -/
theorem table_addAll (h : r.Stores []) (asked : List Registration) (hash : ScriptHash) :
    (r.addAll asked).table hash.bytes = r.firstScript? asked hash := by
  have hget : ∀ script, (r.addAll asked).get hash.bytes = .ok script ↔
      r.firstScript? asked hash = some script := by
    intro script
    rw [(h.run asked).2.get_iff, List.nil_append]
    constructor
    · rintro ⟨found, hbytes, hmem⟩
      rw [ScriptHash.eq_of_bytes_eq hbytes] at hmem
      exact ((h.mem_added_iff asked).mp hmem).2
    · intro hfirst
      exact ⟨hash, rfl, (h.mem_added_iff asked).mpr ⟨List.not_mem_nil, hfirst⟩⟩
  ext script
  rw [← hget, table]
  cases (r.addAll asked).get hash.bytes <;> simp [Except.toOption]

end Stores

/-- After any registrations, under any codec for addresses: the registry holds the first script
for each hash, and one registration has succeeded for each. An address that the codec does not read
is refused with what the codec says. Any other registration is for the hash that it gives, or that
its address is read as; it is refused if that is taken. A refusal changes nothing. A script is found
for a byte string, by each way to look, exactly if that is the hash of a script that is held. The
list has each of them once, in the order of the hashes read backwards. -/
theorem registrations_insertOnce (codec : AddressCodec) (asked : List Registration) :
    let fresh : ScriptRegistry := { codec := codec }
    let r := fresh.addAll asked
    let stored := fresh.added asked
    ((stored.map (·.1)).Nodup ∧
      ∀ hash script, (hash, script) ∈ stored ↔ fresh.firstScript? asked hash = some script) ∧
    (∀ text script e, codec text = .error e →
      r.add (.address text) script = (.error (.invalidAddress e), r, [])) ∧
    (∀ locator script hash, ScriptLocator.Names codec hash locator →
      if hash ∈ stored.map (·.1) then
        r.add locator script = (.error (.duplicateScript (Text.Hex.encode hash.reversed)), r, [])
      else (r.add locator script).1 = .ok hash) ∧
    (∀ q,
      (∀ script,
        (r.get q = .ok script ↔ ∃ hash, hash.bytes = q ∧ (hash, script) ∈ stored) ∧
        (r.table q = some script ↔ r.get q = .ok script)) ∧
      (r.contains q = true ↔ ∃ script, r.get q = .ok script) ∧
      (r.contains q = false ↔ r.get q = .error (.missingScript (Text.Hex.encode q.reverse)))) ∧
    r.size = stored.length ∧
    ∃ listed : List (ScriptHash × Bytes), listed.Perm stored ∧ r.toList = listed.map entry ∧
      listed.Pairwise fun a b => Bytes.order a.1.reversed b.1.reversed = .lt := by
  intro fresh r stored
  have hfresh : fresh.Stores [] := stores_empty codec
  obtain ⟨hcodec, h⟩ : r.codec = codec ∧ r.Stores stored := hfresh.run asked
  obtain ⟨listed, hperm, hlist, hsorted⟩ := h.exists_sorted
  refine ⟨⟨h.distinct, ?_⟩, ?_, ?_, ?_, ?_, listed, hperm, hlist, hsorted⟩
  · intro hash script
    rw [hfresh.mem_added_iff]
    simp
  · intro text script e hread
    have hlocate : r.locate (.address text) = .error e := by rw [locate, hcodec, hread]
    exact add_unlocated hlocate
  · intro locator script hash hnames
    have hlocate : r.locate locator = .ok hash := by rw [locate_eq_ok_iff, hcodec]; exact hnames
    split
    · rename_i hmem
      exact h.refuse hlocate hmem script
    · rename_i hmem
      obtain ⟨_, _, hadd, _⟩ := h.accept hlocate hmem script
      rw [hadd]
  · intro q
    refine ⟨fun script => ⟨h.get_iff, ?_⟩, ?_⟩
    · rw [table]
      cases r.get q <;> simp [Except.toOption]
    · rw [contains, Table.contains, get]
      cases r.scripts.get? (key q) <;> simp [key]
  · have hlength := congrArg List.length hlist
    rw [List.length_map, hperm.length_eq] at hlength
    exact hlength

def sevens : ScriptHash := ⟨List.replicate 20 7, by simp⟩

def eights : ScriptHash := ⟨List.replicate 20 8, by simp⟩

/-- The only address is that of `sevens`. -/
def oneAddress : AddressCodec := fun text =>
  if text = "sevens" then .ok sevens else .error (.invalidHex text)

/-- The second has no hash, and the third has the hash of the first. -/
def mixed : List Registration :=
  [⟨.address "sevens", [1]⟩, ⟨.address "nines", [2]⟩, ⟨.hash sevens, [3]⟩, ⟨.hash .zero, [4]⟩]

theorem registrations_insertOnce_mixed :
    let fresh : ScriptRegistry := { codec := oneAddress }
    let r := fresh.addAll mixed
    fresh.added mixed = [(sevens, [1]), (.zero, [4])] ∧ r.size = 2 ∧
      r.add (.address "nines") [5] = (.error (.invalidAddress (.invalidHex "nines")), r, []) ∧
      r.add (.address "sevens") [5] =
        (.error (.duplicateScript "0707070707070707070707070707070707070707"), r, []) ∧
      (r.add (.hash eights) [5]).1 = .ok eights ∧
      r.get sevens.bytes = .ok [1] ∧ r.get [7] = .error (.missingScript "07") := by
  intro fresh r
  have hadded : fresh.added mixed = [(sevens, [1]), (.zero, [4])] := by decide +kernel
  have hkey : Text.Hex.encode sevens.reversed = "0707070707070707070707070707070707070707" := by
    decide +kernel
  obtain ⟨-, hunread, hread, hfound, hsize, -⟩ := registrations_insertOnce oneAddress mixed
  rw [hadded] at hread hsize
  have htaken := hread (.address "sevens") [5] sevens (if_pos rfl)
  have hfree := hread (.hash eights) [5] eights rfl
  rw [if_pos (by decide), hkey] at htaken
  rw [if_neg (by decide)] at hfree
  refine ⟨hadded, hsize, hunread "nines" [5] _ (if_neg (by decide)), htaken, hfree, ?_, ?_⟩
  · refine ((hfound sevens.bytes).1 [1]).1.mpr ⟨sevens, rfl, ?_⟩
    rw [hadded]
    exact List.mem_cons_self
  · refine (hfound [7]).2.2.mp (Bool.eq_false_iff.mpr ?_)
    intro hcontains
    obtain ⟨script, hget⟩ := (hfound [7]).2.1.mp hcontains
    obtain ⟨hash, hbytes, -⟩ := ((hfound [7]).1 script).1.mp hget
    have hlength := hash.length_eq
    rw [hbytes] at hlength
    cases hlength

end ScriptRegistry

end ScriptHost
