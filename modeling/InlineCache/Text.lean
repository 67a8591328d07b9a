/-! Byte strings and the numerals written into them.
Names, labels and property keys are compared and hashed byte by byte, so text
is kept as bytes throughout. A numeral has no leading zero and lower-case digits. -/

namespace InlineCache

abbrev Text := List UInt8

namespace Text

def ofString (s : String) : Text := s.toByteArray.data.toList

instance : Coe String Text := ⟨ofString⟩

def toString (t : Text) : String := (String.fromUTF8? ⟨t.toArray⟩).getD ""

def digit (d : Nat) : UInt8 := UInt8.ofNat (if d < 10 then 48 + d else 87 + d)

/-- The digits of `n` in the given base, set before `tail`; the first argument
bounds their number. -/
def digitsOnto (base : Nat) : Nat → Nat → Text → Text
  | 0, _, tail => tail
  | bound + 1, n, tail =>
    let tail := digit (n % base) :: tail
    if n < base then tail else digitsOnto base bound (n / base) tail

def decimal (n : Nat) : Text := digitsOnto 10 (n + 1) n []

def hex (n : Nat) : Text := digitsOnto 16 (n + 1) n []

def signedDecimal : Int → Text
  | .ofNat n => decimal n
  | .negSucc n => "-" ++ decimal (n + 1)

def digitsValue? (s : Text) : Option Nat :=
  s.foldlM (fun acc b =>
    if 48 ≤ b ∧ b ≤ 57 then some (acc * 10 + (b.toNat - 48)) else none) 0

def zeros (count : Nat) : Text := List.replicate count 48

def tagged (tag : Text) (n : Nat) : Text := tag ++ "(0x" ++ hex n ++ ")"

theorem digitsOnto_append (base bound n : Nat) (tail : Text) :
    digitsOnto base bound n tail = digitsOnto base bound n [] ++ tail := by
  induction bound generalizing n tail with
  | zero => rfl
  | succ bound ih =>
    simp only [digitsOnto]
    split
    · rfl
    · rw [ih _ (_ :: tail), ih _ [_]]
      simp

theorem digitsOnto_bound {base a b n : Nat} (hbase : 1 < base) (ha : n < a) (hb : n < b)
    (tail : Text) : digitsOnto base a n tail = digitsOnto base b n tail := by
  induction a generalizing b n tail with
  | zero => omega
  | succ a ih =>
    obtain ⟨b, rfl⟩ : ∃ c, b = c + 1 := ⟨b - 1, by omega⟩
    simp only [digitsOnto]
    split
    · rfl
    · have hd : n / base < n := Nat.div_lt_self (by omega) hbase
      exact ih (by omega) (by omega) _

theorem decimal_of_lt {n : Nat} (h : n < 10) : decimal n = [digit n] := by
  simp [decimal, digitsOnto, h, Nat.mod_eq_of_lt h]

theorem decimal_of_le {n : Nat} (h : 10 ≤ n) :
    decimal n = decimal (n / 10) ++ [digit (n % 10)] := by
  have hd : n / 10 < n := Nat.div_lt_self (by omega) (by omega)
  rw [decimal, digitsOnto, if_neg (by omega), digitsOnto_append,
    digitsOnto_bound (by omega) hd (Nat.lt_succ_self _)]
  rfl

theorem digit_le {d : Nat} (h : d < 10) : 48 ≤ digit d ∧ digit d ≤ 57 := by
  simp only [digit, if_pos h]
  constructor <;> simp [UInt8.le_iff_toNat_le] <;> omega

theorem digit_toNat {d : Nat} (h : d < 10) : (digit d).toNat = 48 + d := by
  simp [digit, h]
  omega

theorem digitsValue?_append (s : Text) (b : UInt8) :
    digitsValue? (s ++ [b]) = (digitsValue? s).bind fun n =>
      if 48 ≤ b ∧ b ≤ 57 then some (n * 10 + (b.toNat - 48)) else none := by
  simp [digitsValue?]

theorem digitsValue?_digit {s : Text} {m d : Nat} (hs : digitsValue? s = some m) (hd : d < 10) :
    digitsValue? (s ++ [digit d]) = some (m * 10 + d) := by
  rw [digitsValue?_append, hs, Option.bind_some, if_pos (digit_le hd), digit_toNat hd]
  simp

theorem digitsValue?_decimal (n : Nat) : digitsValue? (decimal n) = some n := by
  induction n using Nat.strongRecOn with
  | ind n ih =>
    by_cases h : n < 10
    · rw [decimal_of_lt h]
      simpa using digitsValue?_digit (s := []) (m := 0) rfl h
    · rw [decimal_of_le (by omega),
        digitsValue?_digit (ih (n / 10) (by omega)) (Nat.mod_lt n (by omega))]
      congr 1
      omega

end Text

end InlineCache
