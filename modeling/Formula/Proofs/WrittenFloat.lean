import Formula.Decimal.Layout
import Formula.Proofs.Binary64
import Formula.Proofs.Numeral
import Mathlib.Data.List.DropRight
import Mathlib.Tactic.Ring

/-! # Written floats

The numeral of a float is in good form. What has to be shown is that the shortest digits of a
positive float never vanish: a decimal in the float's interval is positive, and with eighteen digits
the last resort of the search is positive as well.
-/

namespace Formula.Decimal

namespace Binary

/-- The range of the magnitudes of floats. -/
structure InRange (b : Binary) : Prop where
  mantissa_pos : 0 < b.mantissa
  mantissa_lt : b.mantissa < 2 ^ 53
  exponent_ge : -1074 ≤ b.exponent
  exponent_le : b.exponent ≤ 972

theorem inRange_ofFloat {x : Float} (hx : ¬x == 0) : (ofFloat x).InRange := by
  have hbits : x.toBits.toNat % 2 ^ 63 ≠ 0 := fun h => hx (Binary64.beq_zero h)
  simp only [ofFloat, Nat.pow_eq]
  split
  · constructor <;> simp only <;> omega
  · constructor <;> simp only <;> omega

theorem factor_pos (b : Binary) (k : Int) : 0 < 2 ^ b.exponent.toNat * 10 ^ (-k).toNat :=
  Nat.mul_pos (Nat.pow_pos (by decide)) (Nat.pow_pos (by decide))

theorem unit_pos (b : Binary) (k : Int) : 0 < (b.scale k).unit :=
  Nat.mul_pos (Nat.mul_pos (by decide) (Nat.pow_pos (by decide))) (Nat.pow_pos (by decide))

theorem lower_pos_of_holdsBelow {b : Binary} (hb : 0 < b.mantissa) {k : Int}
    (h : (b.scale k).holdsBelow ((b.scale k).value % (b.scale k).unit)) :
    0 < (b.scale k).value / (b.scale k).unit := by
  apply Nat.pos_of_ne_zero
  intro hzero
  have hlt : (b.scale k).value < (b.scale k).unit := by
    obtain hunit | hlt := Nat.div_eq_zero_iff.mp hzero
    · exact absurd hunit (unit_pos b k).ne'
    · exact hlt
  rw [Nat.mod_eq_of_lt hlt] at h
  have hfactor := factor_pos b k
  have hvalue : 4 * (2 ^ b.exponent.toNat * 10 ^ (-k).toNat) ≤ (b.scale k).value := by
    simp only [scale, Nat.pow_eq]
    exact Nat.mul_le_mul_right _ (by omega)
  have hbelow : (b.scale k).below ≤ 2 * (2 ^ b.exponent.toNat * 10 ^ (-k).toNat) := by
    simp only [scale, Nat.pow_eq]
    exact Nat.mul_le_mul_right _ (by split <;> omega)
  have hle : (b.scale k).value ≤ (b.scale k).below := by
    simp only [Scaled.holdsBelow, Bool.or_eq_true, Bool.and_eq_true, decide_eq_true_eq] at h
    omega
  omega

theorem nearest?_pos {b : Binary} (hb : 0 < b.mantissa) {k : Int} {tie : Tie} {d : Nat}
    (h : (b.scale k).nearest? tie = some d) : 0 < d := by
  have hupper : 0 < (b.scale k).value / (b.scale k).unit + 1 := Nat.succ_pos _
  simp only [Scaled.nearest?] at h
  split at h
  · rename_i hbelow habove
    have hlower := lower_pos_of_holdsBelow hb hbelow
    split at h
    · cases h
      exact hlower
    · split at h
      · cases h
        exact hupper
      · cases tie with
        | up =>
          cases h
          exact hupper
        | even =>
          cases h
          split <;> assumption
  · rename_i hbelow habove
    cases h
    exact lower_pos_of_holdsBelow hb hbelow
  · cases h
    exact hupper
  · cases h

theorem reaches_iff {b : Binary} {e : Int} :
    b.reaches e ↔ 10 ^ e.toNat * 2 ^ (-b.exponent).toNat ≤
      b.mantissa * 2 ^ b.exponent.toNat * 10 ^ (-e).toNat := by
  simp only [reaches, Nat.pow_eq, decide_eq_true_eq]

theorem reaches_mono {b : Binary} {e e' : Int} (hle : e' ≤ e) (h : b.reaches e) :
    b.reaches e' := by
  rw [reaches_iff] at h ⊢
  calc
    10 ^ e'.toNat * 2 ^ (-b.exponent).toNat ≤ 10 ^ e.toNat * 2 ^ (-b.exponent).toNat :=
      Nat.mul_le_mul_right _ (Nat.pow_le_pow_right (by decide) (by omega))
    _ ≤ b.mantissa * 2 ^ b.exponent.toNat * 10 ^ (-e).toNat := h
    _ ≤ b.mantissa * 2 ^ b.exponent.toNat * 10 ^ (-e').toNat :=
      Nat.mul_le_mul_left _ (Nat.pow_le_pow_right (by decide) (by omega))

theorem unit_le_value_of_reaches {b : Binary} {k : Int} (h : b.reaches k) :
    (b.scale k).unit ≤ (b.scale k).value := by
  have h4 := Nat.mul_le_mul_left 4 (reaches_iff.mp h)
  simp only [scale, Nat.pow_eq]
  calc
    4 * 2 ^ (-b.exponent).toNat * 10 ^ k.toNat = 4 * (10 ^ k.toNat * 2 ^ (-b.exponent).toNat) := by
      ring
    _ ≤ 4 * (b.mantissa * 2 ^ b.exponent.toNat * 10 ^ (-k).toNat) := h4
    _ = 4 * b.mantissa * (2 ^ b.exponent.toNat * 10 ^ (-k).toNat) := by ring

/-- Powers of two against the powers of ten that the binary logarithm stands for, up to eighteen
digits. -/
theorem tenPow_le_twoPow {l : Int} (hge : -1074 ≤ l) (hle : l ≤ 1024) :
    10 ^ (l * 30103 / 100000 - 18).toNat * 2 ^ (-l).toNat ≤
      2 ^ l.toNat * 10 ^ (18 - l * 30103 / 100000).toNat := by
  by_cases hpos : 0 ≤ l * 30103 / 100000 - 18
  · have hl : (-l).toNat = 0 := by omega
    have ha : 3 * ((l * 30103 / 100000 - 18).toNat / 3 + 1) ≥ (l * 30103 / 100000 - 18).toNat := by
      omega
    have hb : 10 * ((l * 30103 / 100000 - 18).toNat / 3 + 1) ≤ l.toNat := by omega
    rw [hl, Nat.pow_zero, Nat.mul_one]
    calc
      10 ^ (l * 30103 / 100000 - 18).toNat
          ≤ 10 ^ (3 * ((l * 30103 / 100000 - 18).toNat / 3 + 1)) :=
        Nat.pow_le_pow_right (by decide) ha
      _ = (10 ^ 3) ^ ((l * 30103 / 100000 - 18).toNat / 3 + 1) := Nat.pow_mul ..
      _ ≤ (2 ^ 10) ^ ((l * 30103 / 100000 - 18).toNat / 3 + 1) :=
        Nat.pow_le_pow_left (by decide) _
      _ = 2 ^ (10 * ((l * 30103 / 100000 - 18).toNat / 3 + 1)) := (Nat.pow_mul ..).symm
      _ ≤ 2 ^ l.toNat := Nat.pow_le_pow_right (by decide) hb
      _ ≤ 2 ^ l.toNat * 10 ^ (18 - l * 30103 / 100000).toNat :=
        Nat.le_mul_of_pos_right _ (Nat.pow_pos (by decide))
  · have ha : (l * 30103 / 100000 - 18).toNat = 0 := by omega
    have hb : 4 * ((18 - l * 30103 / 100000).toNat / 4) ≤ (18 - l * 30103 / 100000).toNat := by
      omega
    have hl : (-l).toNat ≤ 13 * ((18 - l * 30103 / 100000).toNat / 4) := by omega
    rw [ha, Nat.pow_zero, Nat.one_mul]
    calc
      2 ^ (-l).toNat ≤ 2 ^ (13 * ((18 - l * 30103 / 100000).toNat / 4)) :=
        Nat.pow_le_pow_right (by decide) hl
      _ = (2 ^ 13) ^ ((18 - l * 30103 / 100000).toNat / 4) := Nat.pow_mul ..
      _ ≤ (10 ^ 4) ^ ((18 - l * 30103 / 100000).toNat / 4) := Nat.pow_le_pow_left (by decide) _
      _ = 10 ^ (4 * ((18 - l * 30103 / 100000).toNat / 4)) := (Nat.pow_mul ..).symm
      _ ≤ 10 ^ (18 - l * 30103 / 100000).toNat := Nat.pow_le_pow_right (by decide) hb
      _ ≤ 2 ^ l.toNat * 10 ^ (18 - l * 30103 / 100000).toNat :=
        Nat.le_mul_of_pos_left _ (Nat.pow_pos (by decide))

theorem reaches_guess {b : Binary} (hb : b.InRange) :
    b.reaches ((b.mantissa.log2 + b.exponent) * 30103 / 100000 - 18) := by
  have hlog : b.mantissa.log2 < 53 := (Nat.log2_lt hb.mantissa_pos.ne').mpr hb.mantissa_lt
  have hself : 2 ^ b.mantissa.log2 ≤ b.mantissa := Nat.log2_self_le hb.mantissa_pos.ne'
  have hge := hb.exponent_ge
  have hle := hb.exponent_le
  generalize hl : (b.mantissa.log2 : Int) + b.exponent = l
  have hpow := tenPow_le_twoPow (l := l) (by omega) (by omega)
  have hexp : l.toNat + (-b.exponent).toNat =
      (-l).toNat + (b.mantissa.log2 + b.exponent.toNat) := by omega
  rw [reaches_iff, Int.neg_sub]
  refine Nat.le_of_mul_le_mul_left ?_ (Nat.pow_pos (by decide) : 0 < 2 ^ (-l).toNat)
  generalize (l * 30103 / 100000 - 18).toNat = a at hpow ⊢
  generalize (18 - l * 30103 / 100000).toNat = c at hpow ⊢
  calc
    2 ^ (-l).toNat * (10 ^ a * 2 ^ (-b.exponent).toNat)
        = 10 ^ a * 2 ^ (-l).toNat * 2 ^ (-b.exponent).toNat := by ring
    _ ≤ 2 ^ l.toNat * 10 ^ c * 2 ^ (-b.exponent).toNat := Nat.mul_le_mul_right _ hpow
    _ = 2 ^ (l.toNat + (-b.exponent).toNat) * 10 ^ c := by ring
    _ = 2 ^ (-l).toNat * (2 ^ b.mantissa.log2 * 2 ^ b.exponent.toNat * 10 ^ c) := by
      rw [hexp]
      ring
    _ ≤ 2 ^ (-l).toNat * (b.mantissa * 2 ^ b.exponent.toNat * 10 ^ c) :=
      Nat.mul_le_mul_left _ (Nat.mul_le_mul_right _ (Nat.mul_le_mul_right _ hself))

theorem reaches_magnitude {b : Binary} (hb : b.InRange) : b.reaches (b.magnitude - 18) := by
  unfold magnitude
  simp only
  split
  · rename_i h
    exact reaches_mono (by omega) h
  · split
    · rename_i h
      exact reaches_mono (by omega) h
    · exact reaches_guess hb

end Binary

theorem searchFrom_pos {b : Binary} (hb : b.InRange) (tie : Tie) {count more : Nat}
    (h : count + more = 18) : 0 < (searchFrom b tie b.magnitude count more).1 := by
  induction more generalizing count with
  | zero =>
    have hk : b.magnitude - (count : Int) = b.magnitude - 18 := by omega
    have hle := Binary.unit_le_value_of_reaches (Binary.reaches_magnitude hb)
    simp only [searchFrom, hk]
    exact Nat.div_pos hle (Binary.unit_pos b _)
  | succ more ih =>
    rw [searchFrom]
    split
    · rename_i d hd
      exact Binary.nearest?_pos hb.mantissa_pos hd
    · exact ih (by omega)

theorem shortest_pos {b : Binary} (hb : b.InRange) (tie : Tie) : 0 < (shortest b tie).1 :=
  searchFrom_pos hb tie rfl

/-- Digits of a positive number, without zeros in front. -/
structure SignificantDigits (digits : List Char) : Prop where
  ne_nil : digits ≠ []
  head_ne_zero : digits.head? ≠ some '0'
  isDigit : ∀ c ∈ digits, c.isDigit

namespace Layout

theorem significantDigits {decimal : Nat × Int} (h : 0 < decimal.1) :
    SignificantDigits (significant decimal).1 := by
  obtain ⟨c, digits, hdigits⟩ :=
    List.exists_cons_of_ne_nil (Nat.toDigits_ne_nil : Nat.toDigits 10 decimal.1 ≠ [])
  have hc : c ≠ '0' := by
    have hhead := head?_toDigits_ne_zero h
    rw [hdigits, List.head?_cons] at hhead
    intro heq
    exact hhead (congrArg some heq)
  have hprefix : (significant decimal).1 <+: c :: digits := by
    rw [← hdigits]
    exact List.rdropWhile_prefix _ _
  have hne : (significant decimal).1 ≠ [] := by
    intro hnil
    have hall := List.rdropWhile_eq_nil_iff.mp hnil c (hdigits ▸ List.mem_cons_self)
    exact hc (by simpa using hall)
  constructor
  · exact hne
  · obtain ⟨d, rest, hrest⟩ := List.exists_cons_of_ne_nil hne
    rw [hrest] at hprefix ⊢
    rw [List.head?_cons, (List.cons_prefix_cons.mp hprefix).1]
    intro heq
    exact hc (Option.some.inj heq)
  · intro d hd
    exact isDigit_of_mem_toDigits (hdigits ▸ hprefix.subset hd)

theorem isDigit_of_mem_wholeFraction {L : Layout} {c : Char} (h : c ∈ L.wholeFraction) :
    c.isDigit := by
  unfold wholeFraction at h
  split at h
  · rw [List.mem_singleton.mp h]
    decide
  · cases h

theorem isDigit_of_mem_replicate {n : Nat} {c : Char} (h : c ∈ List.replicate n '0') :
    c.isDigit := by
  rw [List.eq_of_mem_replicate h]
  decide

theorem wellFormed_split {negative : Bool} {digits : List Char} {exponent : Option Int}
    (hdigits : SignificantDigits digits) (n : Nat) :
    Numeral.WellFormed
      { negative, whole := digits.take (n + 1), fraction := digits.drop (n + 1), exponent } := by
  obtain ⟨c, rest, rfl⟩ := List.exists_cons_of_ne_nil hdigits.ne_nil
  constructor
  · simp
  · intro d hd
    exact hdigits.isDigit d (List.mem_of_mem_take hd)
  · intro h
    exact absurd h hdigits.head_ne_zero
  · intro d hd
    exact hdigits.isDigit d (List.mem_of_mem_drop hd)

theorem wellFormed_arrange (L : Layout) (negative : Bool) {digits : List Char}
    (hdigits : SignificantDigits digits) (point : Int) :
    (L.arrange negative digits point).WellFormed := by
  unfold arrange
  split
  · split
    · constructor
      · simp
      · simp
      · simp
      · intro d hd
        obtain hd | hd := List.mem_append.mp hd
        · exact isDigit_of_mem_replicate hd
        · exact hdigits.isDigit d hd
    · split
      · obtain ⟨c, rest, rfl⟩ := List.exists_cons_of_ne_nil hdigits.ne_nil
        constructor
        · simp
        · intro d hd
          obtain hd | hd := List.mem_append.mp hd
          · exact hdigits.isDigit d hd
          · exact isDigit_of_mem_replicate hd
        · intro h
          exact absurd h hdigits.head_ne_zero
        · intro d hd
          exact isDigit_of_mem_wholeFraction hd
      · obtain ⟨n, hn⟩ : ∃ n, point.toNat = n + 1 := ⟨point.toNat - 1, by omega⟩
        rw [hn]
        exact wellFormed_split hdigits n
  · exact wellFormed_split hdigits 0

theorem wellFormed_numeral (L : Layout) (x : Float) : (L.numeral x).WellFormed := by
  unfold numeral
  simp only
  split
  · constructor
    · simp
    · simp
    · simp
    · intro c hc
      exact isDigit_of_mem_wholeFraction hc
  · rename_i hx
    exact wellFormed_arrange L _
      (significantDigits (shortest_pos (Binary.inRange_ofFloat hx) L.tie)) _

end Layout

end Formula.Decimal
