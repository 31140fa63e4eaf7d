/-!
# Decimal digits of large numbers

The count of derivations of a forest may have hundreds of thousands of digits. Taking them off one
at a time divides the whole number once for every digit. `decimal` divides by a power of ten that
cuts the digits in half and goes on with the halves.

## Main results

* `toDigits_eq_append`: cutting a number at a power of ten cuts its digits in two.
* `decimal_eq_toString`: `decimal` writes what `toString` writes.
-/

namespace ParseTree

namespace Text

/-- The last `m` digits of `n`, zeros in front included. -/
def lastDigits : Nat → Nat → List Char
  | 0, _ => []
  | m + 1, n => lastDigits m (n / 10) ++ [Nat.digitChar (n % 10)]

private theorem pow_succ_left (b k : Nat) : Nat.pow b (k + 1) = b * Nat.pow b k :=
  Nat.mul_comm _ _

/-- The last digits of a number are those of what is left of it behind a cut. -/
theorem lastDigits_add (m k n : Nat) :
    lastDigits (m + k) n = lastDigits m (n / Nat.pow 10 k) ++ lastDigits k n := by
  induction k generalizing n with
  | zero =>
    rw [Nat.add_zero, lastDigits, List.append_nil]
    exact congrArg _ (Nat.div_one n).symm
  | succ k ih =>
    rw [← Nat.add_assoc, lastDigits, ih, lastDigits, Nat.div_div_eq_div_mul, pow_succ_left,
      List.append_assoc]

theorem lastDigits_mod (m n : Nat) : lastDigits m (n % Nat.pow 10 m) = lastDigits m n := by
  induction m generalizing n with
  | zero => rfl
  | succ m ih =>
    rw [lastDigits, lastDigits, pow_succ_left, Nat.mod_mul_right_div_self, ih,
      Nat.mod_mul_right_mod]

/-- **Cutting a number** at a power of ten cuts its digits in two. -/
theorem toDigits_eq_append {m n : Nat} (h : Nat.pow 10 m ≤ n) :
    Nat.toDigits 10 n = Nat.toDigits 10 (n / Nat.pow 10 m) ++ lastDigits m n := by
  induction m generalizing n with
  | zero => simp [lastDigits]
  | succ m ih =>
    have hpos : 0 < Nat.pow 10 m := Nat.pow_pos (by omega)
    change Nat.pow 10 m * 10 ≤ n at h
    rw [Nat.toDigits_of_base_le (by omega) (by omega), ih ((Nat.le_div_iff_mul_le (by omega)).2 h),
      Nat.div_div_eq_div_mul, lastDigits, pow_succ_left, List.append_assoc]

/-- Put the last `2 ^ k` digits of `n` before `cs`. -/
def consBlock : Nat → Nat → List Char → List Char
  | 0, n, cs => Nat.digitChar (n % 10) :: cs
  | k + 1, n, cs =>
    let half := Nat.pow 10 (Nat.pow 2 k)
    consBlock k (n / half) (consBlock k (n % half) cs)

theorem consBlock_eq (k n : Nat) (cs : List Char) :
    consBlock k n cs = lastDigits (Nat.pow 2 k) n ++ cs := by
  induction k generalizing n cs with
  | zero => rfl
  | succ k ih =>
    rw [consBlock, ih, ih, lastDigits_mod, pow_succ_left, Nat.two_mul, lastDigits_add,
      List.append_assoc]

/-- Put the digits of `n` before `cs`, cutting at most `k` times. -/
def consDigits : Nat → Nat → List Char → List Char
  | 0, n, cs => Nat.toDigits 10 n ++ cs
  | k + 1, n, cs =>
    let half := Nat.pow 10 (Nat.pow 2 k)
    if n < half then consDigits k n cs else consDigits k (n / half) (consBlock k (n % half) cs)

theorem consDigits_eq (k n : Nat) (cs : List Char) :
    consDigits k n cs = Nat.toDigits 10 n ++ cs := by
  induction k generalizing n cs with
  | zero => rfl
  | succ k ih =>
    rw [consDigits]
    split
    · exact ih n cs
    · rename_i h
      rw [ih, consBlock_eq, lastDigits_mod, toDigits_eq_append (Nat.not_lt.1 h), List.append_assoc]

/-- A number in decimal digits. It has fewer digits than bits, so this many cuts reach single
digits. -/
def decimal (n : Nat) : String :=
  String.ofList (consDigits (n.log2.log2 + 1) n [])

theorem decimal_eq_toString (n : Nat) : decimal n = toString n := by
  rw [decimal, consDigits_eq, List.append_nil, Nat.toString_eq_ofList_toDigits]

end Text

end ParseTree
