namespace Splice.Keccak

-- The state has 25 lanes of 64 bits, which stand in five rows of five.
abbrev Lanes := Vector UInt64 25

def lane (s : Lanes) (x y : Nat) : UInt64 :=
  s.get ⟨(x % 5 + 5 * y) % 25, Nat.mod_lt _ (by decide)⟩

def ofLanes (f : (x y : Nat) → UInt64) : Lanes :=
  Vector.ofFn fun i => f (i % 5) (i / 5)

def rotate (w : UInt64) (n : Nat) : UInt64 :=
  if n = 0 then w else (w <<< .ofNat n) ||| (w >>> .ofNat (64 - n))

def rotations : Vector Nat 25 :=
  #v[0, 1, 62, 28, 27, 36, 44, 6, 55, 20, 3, 10, 43, 25, 39, 41, 45, 15, 21, 8, 18, 2, 61, 56, 14]

def rotation (x y : Nat) : Nat :=
  rotations.get ⟨(x % 5 + 5 * y) % 25, Nat.mod_lt _ (by decide)⟩

def roundConstants : List UInt64 := [
  0x0000000000000001, 0x0000000000008082, 0x800000000000808a, 0x8000000080008000,
  0x000000000000808b, 0x0000000080000001, 0x8000000080008081, 0x8000000000008009,
  0x000000000000008a, 0x0000000000000088, 0x0000000080008009, 0x000000008000000a,
  0x000000008000808b, 0x800000000000008b, 0x8000000000008089, 0x8000000000008003,
  0x8000000000008002, 0x8000000000000080, 0x000000000000800a, 0x800000008000000a,
  0x8000000080008081, 0x8000000000008080, 0x0000000080000001, 0x8000000080008008
]

def round (s : Lanes) (constant : UInt64) : Lanes :=
  let column x := lane s x 0 ^^^ lane s x 1 ^^^ lane s x 2 ^^^ lane s x 3 ^^^ lane s x 4
  let parity := Vector.ofFn fun i : Fin 5 => column i
  let at5 x := parity.get ⟨x % 5, Nat.mod_lt _ (by decide)⟩
  let mixed := ofLanes fun x y => lane s x y ^^^ at5 (x + 4) ^^^ rotate (at5 (x + 1)) 1
  let moved := ofLanes fun x y =>
    let origin := (x + 3 * y) % 5
    rotate (lane mixed origin x) (rotation origin x)
  ofLanes fun x y =>
    let bent := lane moved x y ^^^ (~~~ lane moved (x + 1) y &&& lane moved (x + 2) y)
    if x = 0 ∧ y = 0 then bent ^^^ constant else bent

def permute (s : Lanes) : Lanes :=
  roundConstants.foldl round s

def laneOf (bytes : List UInt8) : UInt64 :=
  bytes.foldr (fun b w => (w <<< 8) ||| b.toUInt64) 0

def bytesOf (w : UInt64) : List UInt8 :=
  (List.range 8).map fun i => (w >>> .ofNat (8 * i)).toUInt8

def rate : Nat := 136

def absorb (s : Lanes) (bytes : List UInt8) : Lanes :=
  if bytes = [] then
    s
  else
    let block := bytes.take rate
    let s := ofLanes fun x y =>
      lane s x y ^^^ laneOf ((block.drop (8 * (x + 5 * y))).take 8)
    absorb (permute s) (bytes.drop rate)
termination_by bytes.length
decreasing_by
  rename_i h
  have : bytes.length ≠ 0 := fun e => h (List.length_eq_zero_iff.mp e)
  simp only [List.length_drop, rate]
  omega

def pad (message : List UInt8) : List UInt8 :=
  let free := rate - message.length % rate
  if free = 1 then message ++ [0x81]
  else message ++ 0x01 :: List.replicate (free - 2) 0 ++ [0x80]

def hash (message : List UInt8) : List UInt8 :=
  let s := absorb (Vector.replicate 25 0) (pad message)
  (List.range 4).flatMap fun i => bytesOf (lane s i 0)

end Splice.Keccak
