import ScriptHost.Bytes

/-!
# ScriptHost.Digest.Sha3

SHA3-256. The state is five by five words of 64 bits, word `(x, y)` at place `x + 5 * y`; the
permutation runs 24 rounds of five steps, and a message is absorbed 136 bytes at a time. The
digest is the first four words of the state (`length_digest`).
-/

namespace ScriptHost.Digest.Sha3

abbrev State := Vector UInt64 25

def State.zero : State := Vector.replicate 25 0

/-- The word in column `x` and row `y`, both counted round the edge. -/
def State.word (s : State) (x y : Nat) : UInt64 :=
  s.get ⟨x % 5 + 5 * (y % 5), by omega⟩

def ofWords (word : (x y : Nat) → UInt64) : State :=
  Vector.ofFn fun i => word (i.val % 5) (i.val / 5)

def rotateLeft (w : UInt64) (n : Nat) : UInt64 :=
  if n = 0 then w else (w <<< UInt64.ofNat n) ||| (w >>> UInt64.ofNat (64 - n))

/-- How far the word at each place is rotated. -/
def rotations : Vector Nat 25 :=
  #v[0, 1, 62, 28, 27, 36, 44, 6, 55, 20, 3, 10, 43, 25, 39, 41, 45, 15, 21, 8, 18, 2, 61, 56, 14]

/-- What each round adds to the word at the origin. -/
def roundWords : List UInt64 :=
  [0x0000000000000001, 0x0000000000008082, 0x800000000000808A, 0x8000000080008000,
    0x000000000000808B, 0x0000000080000001, 0x8000000080008081, 0x8000000000008009,
    0x000000000000008A, 0x0000000000000088, 0x0000000080008009, 0x000000008000000A,
    0x000000008000808B, 0x800000000000008B, 0x8000000000008089, 0x8000000000008003,
    0x8000000000008002, 0x8000000000000080, 0x000000000000800A, 0x800000008000000A,
    0x8000000080008081, 0x8000000000008080, 0x0000000080000001, 0x8000000080008008]

/-- Adds to each word the parities of the two columns beside it. -/
def theta (s : State) : State :=
  let parity := Vector.ofFn fun (x : Fin 5) =>
    s.word x 0 ^^^ s.word x 1 ^^^ s.word x 2 ^^^ s.word x 3 ^^^ s.word x 4
  ofWords fun x y =>
    s.word x y ^^^ parity[(x + 4) % 5] ^^^ rotateLeft parity[(x + 1) % 5] 1

/-- Rotates every word and moves it to its new place. -/
def rhoPi (s : State) : State :=
  ofWords fun x y =>
    let column := (x + 3 * y) % 5
    rotateLeft (s.word column x) (rotations[column + 5 * (x % 5)])

/-- Combines each word with the next two of its row. -/
def chi (s : State) : State :=
  ofWords fun x y => s.word x y ^^^ (~~~ (s.word (x + 1) y) &&& s.word (x + 2) y)

def round (s : State) (roundWord : UInt64) : State :=
  let t := chi (rhoPi (theta s))
  t.set 0 (t.word 0 0 ^^^ roundWord)

def permute (s : State) : State := roundWords.foldl round s

/-- Bytes absorbed at a time. -/
def rate : Nat := 136

/-- Adds a block to the beginning of the state and permutes. -/
def absorb (s : State) (block : Bytes) : State :=
  permute <| Vector.ofFn fun i =>
    s[i] ^^^ UInt64.ofNat (Bytes.toNat ((block.drop (8 * i.val)).take 8))

/-- The last block: what is left of the message, the closing bits, zeros, and the final bit. -/
def lastBlock (rest : Bytes) : Bytes :=
  if rest.length + 1 = rate then rest ++ [0x86]
  else rest ++ 0x06 :: List.replicate (rate - 2 - rest.length) 0 ++ [0x80]

def absorbAll (s : State) (message : Bytes) : State :=
  let block := message.take rate
  if block.length < rate then absorb s (lastBlock block)
  else absorbAll (absorb s block) (message.drop rate)
termination_by message.length
decreasing_by
  have shorter : block.length ≤ message.length := List.length_take_le' rate message
  simp only [rate, List.length_drop] at *
  omega

def digest (message : Bytes) : Bytes :=
  let s := absorbAll State.zero message
  [s.word 0 0, s.word 1 0, s.word 2 0, s.word 3 0].flatMap fun w => Bytes.ofNat 8 w.toNat

@[simp] theorem length_digest (message : Bytes) : (digest message).length = 32 := by
  simp [digest]

end ScriptHost.Digest.Sha3
