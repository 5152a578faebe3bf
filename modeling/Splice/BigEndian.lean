namespace Splice.BigEndian

def value (bytes : List UInt8) : Nat :=
  bytes.foldl (fun n b => n * 256 + b.toNat) 0

def bytes : (width : Nat) → Nat → List UInt8
  | 0, _ => []
  | width + 1, n => bytes width (n / 256) ++ [.ofNat n]

def bound : (width : Nat) → Nat
  | 0 => 1
  | width + 1 => 256 * bound width

def shiftIn (n : UInt64) (b : UInt8) : UInt64 :=
  n <<< 8 ||| b.toUInt64

-- Offsets into a code have eight bytes. Zeros in front do not count.
def offset? (bytes : List UInt8) : Option UInt64 :=
  let significant := bytes.dropWhile (· = 0)
  if 8 < significant.length then none else some (significant.foldl shiftIn 0)

theorem bound_le_bound {width width' : Nat} (h : width ≤ width') : bound width ≤ bound width' := by
  induction h with
  | refl => exact Nat.le_refl _
  | step _ ih =>
    rw [bound]
    omega

@[simp]
theorem value_nil : value [] = 0 :=
  rfl

@[simp]
theorem value_concat (bs : List UInt8) (b : UInt8) :
    value (bs ++ [b]) = value bs * 256 + b.toNat := by
  simp [value]

@[simp]
theorem value_singleton (b : UInt8) : value [b] = b.toNat := by
  simp [value]

theorem value_append (as bs : List UInt8) :
    value (as ++ bs) = value as * bound bs.length + value bs := by
  induction bs generalizing as with
  | nil => simp [bound]
  | cons b bs ih =>
    have h := ih (as ++ [b])
    have hb := ih [b]
    simp only [List.append_assoc, List.singleton_append, value_concat] at h
    rw [List.singleton_append, value_singleton] at hb
    rw [h, hb, List.length_cons, bound]
    grind

theorem value_cons (b : UInt8) (bs : List UInt8) :
    value (b :: bs) = b.toNat * bound bs.length + value bs := by
  rw [← List.singleton_append, value_append, value_singleton]

theorem value_lt (bs : List UInt8) : value bs < bound bs.length := by
  induction bs with
  | nil => simp [bound]
  | cons b bs ih =>
    have hb : b.toNat * bound bs.length ≤ 255 * bound bs.length :=
      Nat.mul_le_mul_right _ (Nat.le_of_lt_succ b.toNat_lt)
    rw [value_cons, List.length_cons, bound]
    omega

@[simp]
theorem length_bytes (width n : Nat) : (bytes width n).length = width := by
  induction width generalizing n with
  | zero => rfl
  | succ width ih => simp [bytes, ih]

theorem value_bytes (width n : Nat) : value (bytes width n) = n % bound width := by
  induction width generalizing n with
  | zero => simp [bytes, bound, Nat.mod_one]
  | succ width ih =>
    simp only [bytes, bound, value_concat, ih, UInt8.toNat_ofNat']
    have h := Nat.mod_mul (a := 256) (b := bound width) (x := n)
    omega

theorem value_bytes_of_lt {width n : Nat} (h : n < bound width) : value (bytes width n) = n := by
  rw [value_bytes, Nat.mod_eq_of_lt h]

theorem bytes_value {width : Nat} {bs : List UInt8} (h : bs.length = width) :
    bytes width (value bs) = bs := by
  induction width generalizing bs with
  | zero => simp_all [bytes]
  | succ width ih =>
    obtain ⟨as, b, rfl⟩ := List.eq_nil_or_concat bs |>.resolve_left (by rintro rfl; simp at h)
    have hb := b.toNat_lt
    have high : (value as * 256 + b.toNat) / 256 = value as := by omega
    have low : UInt8.ofNat (value as * 256 + b.toNat) = b := by
      apply UInt8.toNat_inj.mp
      simp only [UInt8.toNat_ofNat']
      omega
    have ha : as.length = width := by simpa using h
    rw [List.concat_eq_append, value_concat, bytes, high, ih ha, low]

theorem toNat_shiftIn {n : UInt64} (h : n.toNat < bound 7) (b : UInt8) :
    (shiftIn n b).toNat = n.toNat * 256 + b.toNat := by
  have hroom : n.toNat * 256 < bound 8 := by
    rw [bound]
    omega
  have hshift : (n <<< 8).toNat = n.toNat <<< 8 := by
    rw [UInt64.toNat_shiftLeft]
    refine Nat.mod_eq_of_lt ?_
    rw [Nat.shiftLeft_eq]
    exact hroom
  rw [shiftIn, UInt64.toNat_or, hshift, UInt8.toNat_toUInt64,
    ← Nat.shiftLeft_add_eq_or_of_lt b.toNat_lt, Nat.shiftLeft_eq]

-- As long as there is room for the bytes that are left, none of those before them are shifted out.
theorem toNat_foldl_shiftIn {bs : List UInt8} {n : UInt64} {width : Nat}
    (hn : n.toNat < bound width) (h : width + bs.length ≤ 8) :
    (bs.foldl shiftIn n).toNat = bs.foldl (fun n b => n * 256 + b.toNat) n.toNat := by
  induction bs generalizing n width with
  | nil => rfl
  | cons b bs ih =>
    rw [List.length_cons] at h
    have hstep := toNat_shiftIn (Nat.lt_of_lt_of_le hn (bound_le_bound (by omega))) b
    have hnext : (shiftIn n b).toNat < bound (width + 1) := by
      have hb := b.toNat_lt
      rw [hstep, bound]
      omega
    rw [List.foldl_cons, ih hnext (by omega), hstep, List.foldl_cons]

theorem value_dropWhile_zero (bs : List UInt8) : value (bs.dropWhile (· = 0)) = value bs := by
  induction bs with
  | nil => rfl
  | cons b bs ih =>
    by_cases hb : b = 0
    case pos => simp [hb, ih, value_cons]
    case neg => simp [hb]

theorem bound_length_le_value {b : UInt8} (hb : b ≠ 0) (bs : List UInt8) :
    bound bs.length ≤ value (b :: bs) := by
  have hpos : 1 ≤ b.toNat := Nat.pos_of_ne_zero fun h => hb (UInt8.toNat_inj.mp h)
  calc
    bound bs.length
      ≤ b.toNat * bound bs.length := Nat.le_mul_of_pos_left _ hpos
    _ ≤ value (b :: bs) := value_cons b bs ▸ Nat.le_add_right ..

theorem value_lt_bound_iff {bs : List UInt8} {width : Nat} :
    value bs < bound width ↔ (bs.dropWhile (· = 0)).length ≤ width := by
  rw [← value_dropWhile_zero]
  constructor
  case mp =>
    intro h
    cases hsignificant : bs.dropWhile (· = 0) with
    | nil => exact Nat.zero_le _
    | cons b rest =>
      have hb : b ≠ 0 := by
        have := List.head?_dropWhile_not (· = 0) bs
        simpa [hsignificant] using this
      rw [hsignificant] at h
      refine Nat.lt_of_not_le fun hle => ?_
      exact absurd (Nat.le_trans (bound_le_bound hle) (bound_length_le_value hb rest)) (by omega)
  case mpr => exact fun h => Nat.lt_of_lt_of_le (value_lt _) (bound_le_bound h)

theorem map_toNat_offset? (bs : List UInt8) :
    (offset? bs).map (·.toNat) = if value bs < bound 8 then some (value bs) else none := by
  rw [offset?]
  by_cases h : value bs < bound 8
  case pos =>
    have hlength := value_lt_bound_iff.mp h
    have hzero : (0 : UInt64).toNat < bound 0 := by decide
    have hread : ((bs.dropWhile (· = 0)).foldl shiftIn 0).toNat = value bs :=
      (toNat_foldl_shiftIn hzero (by omega)).trans (value_dropWhile_zero bs)
    rw [if_pos h, if_neg (Nat.not_lt.mpr hlength), Option.map_some, hread]
  case neg =>
    have hlength := Nat.not_le.mp (mt value_lt_bound_iff.mpr h)
    rw [if_neg h, if_pos hlength, Option.map_none]

end Splice.BigEndian
