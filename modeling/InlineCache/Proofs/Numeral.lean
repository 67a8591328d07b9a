import InlineCache.Proofs.CanonicalIndex
import Mathlib.Algebra.Field.Rat
import Mathlib.Tactic.FieldSimp
import Mathlib.Tactic.NormNum

/-! Decimal notation.
A numeral is an optional minus, digits, perhaps more digits after a point, and perhaps an
exponent. Writing down its parts and reading the text again gives the same parts, so what a
text denotes is the value of the one numeral that it reads as. -/

namespace InlineCache

namespace Text

def cut (b : UInt8) : Text → Text × Option Text
  | [] => ([], none)
  | c :: s => if c = b then ([], some s) else (c :: (cut b s).1, (cut b s).2)

def Digits (s : Text) : Prop := s ≠ [] ∧ ∀ b ∈ s, 48 ≤ b ∧ b ≤ 57

instance (s : Text) : Decidable s.Digits := inferInstanceAs (Decidable (_ ∧ _))

def signed? (s : Text) : Option Int :=
  let minus := s.head? == some 45
  let digits : Text := if minus || s.head? == some 43 then s.tail else s
  if digits.Digits then digits.digitsValue?.map fun n => if minus then -(n : Int) else n else none

variable {s t : Text} {b : UInt8} {n : Nat}

theorem cut_of_not_mem (h : b ∉ s) : s.cut b = (s, none) := by
  induction s with
  | nil => rfl
  | cons c s ih =>
    obtain ⟨hne, hs⟩ := not_or.1 (mt List.mem_cons.2 h)
    rw [cut, if_neg (Ne.symm hne), ih hs]

theorem cut_append (h : b ∉ s) (t : Text) : cut b (s ++ b :: t) = (s, some t) := by
  induction s with
  | nil => exact if_pos rfl
  | cons c s ih =>
    obtain ⟨hne, hs⟩ := not_or.1 (mt List.mem_cons.2 h)
    rw [List.cons_append, cut, if_neg (Ne.symm hne), ih hs]

theorem Digits.not_mem (hs : s.Digits) (hb : ¬(48 ≤ b ∧ b ≤ 57)) : b ∉ s :=
  fun h => hb (hs.2 b h)

theorem Digits.head? (hs : s.Digits) (hb : ¬(48 ≤ b ∧ b ≤ 57)) : s.head? ≠ some b := by
  intro h
  exact hs.not_mem hb (List.mem_of_mem_head? h)

theorem digits_decimal (n : Nat) : (decimal n).Digits :=
  ⟨decimal_ne_nil n, digits_of_digitsValue? (digitsValue?_decimal n)⟩

theorem Digits.append (hs : s.Digits) (ht : ∀ b ∈ t, 48 ≤ b ∧ b ≤ 57) : (s ++ t).Digits := by
  refine ⟨List.append_ne_nil_of_left_ne_nil hs.1 t, fun b hb => ?_⟩
  exact (List.mem_append.1 hb).elim (hs.2 b) (ht b)

theorem Digits.prepend (hs : s.Digits) (ht : ∀ b ∈ t, 48 ≤ b ∧ b ≤ 57) : (t ++ s).Digits := by
  refine ⟨List.append_ne_nil_of_right_ne_nil t hs.1, fun b hb => ?_⟩
  exact (List.mem_append.1 hb).elim (ht b) (hs.2 b)

theorem Digits.take (hs : s.Digits) (hn : 0 < n) : Digits (s.take n) := by
  refine ⟨?_, fun b hb => hs.2 b (List.mem_of_mem_take hb)⟩
  rw [ne_eq, List.take_eq_nil_iff, not_or]
  exact ⟨Nat.ne_of_gt hn, hs.1⟩

theorem Digits.drop (hs : s.Digits) (hn : n < s.length) : Digits (s.drop n) := by
  refine ⟨?_, fun b hb => hs.2 b (List.mem_of_mem_drop hb)⟩
  rw [ne_eq, List.drop_eq_nil_iff]
  exact Nat.not_le_of_lt hn

theorem zeros_digits (count : Nat) : ∀ b ∈ zeros count, 48 ≤ b ∧ b ≤ 57 := by
  intro b hb
  rw [List.eq_of_mem_replicate hb]
  decide

def withSign (e : Int) : Text := (if e < 0 then 45 else 43) :: decimal e.natAbs

theorem signed?_withSign (e : Int) : (withSign e).signed? = some e := by
  have hdigits := digits_decimal e.natAbs
  by_cases he : e < 0
  · have hminus : ((some 45 : Option UInt8) == some 45) = true := rfl
    rw [withSign, if_pos he]
    simp only [signed?, List.head?_cons, List.tail_cons, hminus, Bool.true_or, if_true,
      if_pos hdigits, digitsValue?_decimal]
    exact congrArg some (show -(e.natAbs : Int) = e by omega)
  · have hminus : ((some 43 : Option UInt8) == some 45) = false := rfl
    have hplus : ((some 43 : Option UInt8) == some 43) = true := rfl
    rw [withSign, if_neg he]
    simp only [signed?, List.head?_cons, List.tail_cons, hminus, hplus, Bool.or_true, if_true,
      if_pos hdigits, digitsValue?_decimal, Bool.false_eq_true, if_false]
    exact congrArg some (show (e.natAbs : Int) = e by omega)

theorem digitsValue?_zeros_append (count : Nat) (s : Text) :
    digitsValue? (zeros count ++ s) = digitsValue? s := by
  induction count with
  | zero => rfl
  | succ count ih => exact ih

end Text

structure Numeral where
  negative : Bool
  whole : Text
  fraction? : Option Text
  exponent? : Option Int
deriving DecidableEq

namespace Numeral

def mantissa (n : Numeral) : Text := n.whole ++ n.fraction?.elim [] fun f => 46 :: f

def text (n : Numeral) : Text :=
  (if n.negative then [45] else []) ++ n.mantissa ++
    n.exponent?.elim [] fun e => 101 :: Text.withSign e

def mantissa? (s : Text) : Option (Text × Option Text) :=
  let parts := s.cut 46
  if parts.1.Digits ∧ ∀ f ∈ parts.2, f.Digits then some parts else none

def read? (s : Text) : Option Numeral :=
  let negative := s.head? == some 45
  let parts := Text.cut 101 (if negative then s.tail else s)
  (mantissa? parts.1).bind fun (whole, fraction?) =>
    match parts.2 with
    | none => some ⟨negative, whole, fraction?, none⟩
    | some t => t.signed?.map fun e => ⟨negative, whole, fraction?, some e⟩

def value (n : Numeral) : ℚ :=
  (if n.negative then -1 else 1) *
    ((n.whole ++ n.fraction?.getD []).digitsValue?.getD 0 : ℕ) *
    10 ^ (n.exponent?.getD 0 - (n.fraction?.getD []).length)

structure Proper (n : Numeral) : Prop where
  whole : n.whole.Digits
  fraction : ∀ f ∈ n.fraction?, f.Digits

variable {n : Numeral} {b : UInt8}

theorem mantissa?_mantissa (hn : n.Proper) :
    mantissa? n.mantissa = some (n.whole, n.fraction?) := by
  have hpoint : 46 ∉ n.whole := hn.whole.not_mem (by decide)
  have hcut : n.mantissa.cut 46 = (n.whole, n.fraction?) := by
    rw [mantissa]
    cases n.fraction? with
    | none => exact (congrArg (Text.cut 46) (List.append_nil _)).trans (Text.cut_of_not_mem hpoint)
    | some f => exact Text.cut_append hpoint f
  rw [mantissa?, hcut, if_pos ⟨hn.whole, hn.fraction⟩]

theorem Proper.not_mem_mantissa (hn : n.Proper) (hb : ¬(48 ≤ b ∧ b ≤ 57)) (hpoint : b ≠ 46) :
    b ∉ n.mantissa := by
  rw [mantissa, List.mem_append, not_or]
  refine ⟨hn.whole.not_mem hb, ?_⟩
  cases hf : n.fraction? with
  | none => exact List.not_mem_nil
  | some f => exact not_or.2 ⟨hpoint, (hn.fraction f hf).not_mem hb⟩ ∘ List.mem_cons.1

theorem read?_text (hn : n.Proper) : read? n.text = some n := by
  have hexponent : 101 ∉ n.mantissa := hn.not_mem_mantissa (by decide) (by decide)
  have hcut : ∀ e? : Option Int,
      Text.cut 101 (n.mantissa ++ e?.elim [] fun e => 101 :: Text.withSign e) =
        (n.mantissa, e?.map Text.withSign) := by
    intro e?
    cases e? with
    | none =>
      exact (congrArg (Text.cut 101) (List.append_nil _)).trans (Text.cut_of_not_mem hexponent)
    | some e => exact Text.cut_append hexponent _
  have hhead : (n.mantissa ++ n.exponent?.elim [] fun e => 101 :: Text.withSign e).head? ≠
      some 45 := by
    rw [mantissa, List.append_assoc, List.head?_append_of_ne_nil _ hn.whole.1]
    exact hn.whole.head? (by decide)
  have hsign : (n.text.head? == some 45) = n.negative ∧
      (if n.negative then n.text.tail else n.text) =
        n.mantissa ++ n.exponent?.elim [] fun e => 101 :: Text.withSign e := by
    rw [text, List.append_assoc]
    cases n.negative with
    | true => exact ⟨rfl, rfl⟩
    | false => exact ⟨beq_eq_false_iff_ne.2 hhead, rfl⟩
  simp only [read?, hsign.1, hsign.2, hcut, mantissa?_mantissa hn, Option.bind_some]
  obtain ⟨negative, whole, fraction?, exponent?⟩ := n
  cases exponent? with
  | none => rfl
  | some e =>
    simp only [Option.map_some, Text.signed?_withSign]

end Numeral

end InlineCache
