namespace LuaTypes

namespace Binary64

/-- The gap between the numbers of that precision around a number. -/
def spacing (n : Nat) : Nat :=
  Nat.pow 2 (n.log2 - 52)

/-- Rounds a number to the precision. -/
def round (n : Nat) : Nat :=
  let below := n / spacing n
  let rest := n % spacing n
  if 2 * rest < spacing n ∨ (2 * rest = spacing n ∧ below % 2 = 0) then below * spacing n
  else (below + 1) * spacing n

/-- The least rounded number that is not finite any more. -/
def limit : Nat :=
  Nat.pow 2 1024

theorem spacing_of_lt {n : Nat} (h : n < Nat.pow 2 53) : spacing n = 1 := by
  have hlog : n.log2 - 52 = 0 := by
    by_cases hn : n = 0
    · simp [hn]
    · have : n.log2 < 53 := (Nat.log2_lt hn).2 h
      omega
  rw [spacing, hlog]

theorem round_of_lt {n : Nat} (h : n < Nat.pow 2 53) : round n = n := by
  simp [round, spacing_of_lt h, Nat.mod_one]

/-- Rounding moves a number by half a gap at most. -/
theorem round_near (n : Nat) :
    2 * round n ≤ 2 * n + spacing n ∧ 2 * n ≤ 2 * round n + spacing n := by
  have hdiv : spacing n * (n / spacing n) + n % spacing n = n := Nat.div_add_mod n (spacing n)
  have hmod : n % spacing n < spacing n := Nat.mod_lt n (Nat.two_pow_pos _)
  rw [Nat.mul_comm] at hdiv
  simp only [round]
  split
  · omega
  · rw [Nat.add_mul, Nat.one_mul]
    omega

end Binary64

end LuaTypes
