import Mathlib

/-!
# Fixed-width machine words

Unsigned words are natural numbers reduced modulo `2 ^ w`, signed words are
integers in two's complement.  Only the facts needed to leave the modular
world again are collected here: a value in range is its own reduction.
-/

namespace MachineWord

def wrapU (w n : ℕ) : ℕ := n % 2 ^ w

def subU (w a b : ℕ) : ℕ := (a + (2 ^ w - b % 2 ^ w)) % 2 ^ w

def wrapS (w : ℕ) (z : ℤ) : ℤ := Int.bmod z (2 ^ w)

/-- The unsigned `w`-bit word with the same bits as the signed value `z`. -/
def toU (w : ℕ) (z : ℤ) : ℕ := (z % 2 ^ w).toNat

theorem wrapU_of_lt {w n : ℕ} (h : n < 2 ^ w) : wrapU w n = n :=
  Nat.mod_eq_of_lt h

theorem subU_of_le {w a b : ℕ} (hba : b ≤ a) (ha : a < 2 ^ w) :
    subU w a b = a - b := by
  have hb : b % 2 ^ w = b := Nat.mod_eq_of_lt (hba.trans_lt ha)
  have hsplit : a + (2 ^ w - b) = (a - b) + 2 ^ w := by omega
  rw [subU, hb, hsplit, Nat.add_mod_right]
  exact Nat.mod_eq_of_lt (by omega)

theorem subU_add_modEq (w a b : ℕ) : subU w a b + b ≡ a [MOD 2 ^ w] := by
  have hle : b % 2 ^ w ≤ 2 ^ w := (Nat.mod_lt b (by positivity)).le
  have hcancel : 2 ^ w - b % 2 ^ w + b ≡ 0 [MOD 2 ^ w] :=
    calc 2 ^ w - b % 2 ^ w + b
        ≡ 2 ^ w - b % 2 ^ w + b % 2 ^ w [MOD 2 ^ w] := (Nat.mod_modEq b _).symm.add_left _
      _ = 2 ^ w := Nat.sub_add_cancel hle
      _ ≡ 0 [MOD 2 ^ w] := by simp [Nat.ModEq]
  calc subU w a b + b
      ≡ a + (2 ^ w - b % 2 ^ w) + b [MOD 2 ^ w] := (Nat.mod_modEq _ _).add_right b
    _ = a + (2 ^ w - b % 2 ^ w + b) := Nat.add_assoc ..
    _ ≡ a [MOD 2 ^ w] := hcancel.add_left a

/-- A running total stays exact modulo `2 ^ w` when `m` joins it and `c` leaves it. -/
theorem subU_wrapU_add (w c t m : ℕ) :
    subU w (wrapU w ((c + t) % 2 ^ w + m)) c = (t + m) % 2 ^ w := by
  have hsum : subU w (wrapU w ((c + t) % 2 ^ w + m)) c + c ≡ t + m + c [MOD 2 ^ w] :=
    calc subU w (wrapU w ((c + t) % 2 ^ w + m)) c + c
        ≡ wrapU w ((c + t) % 2 ^ w + m) [MOD 2 ^ w] := subU_add_modEq ..
      _ ≡ (c + t) % 2 ^ w + m [MOD 2 ^ w] := Nat.mod_modEq ..
      _ ≡ c + t + m [MOD 2 ^ w] := (Nat.mod_modEq ..).add_right m
      _ = t + m + c := by omega
  have hcancel : subU w (wrapU w ((c + t) % 2 ^ w + m)) c ≡ t + m [MOD 2 ^ w] :=
    hsum.add_right_cancel'
  rwa [Nat.ModEq, subU, Nat.mod_mod] at hcancel

theorem wrapS_of_range {w : ℕ} {z : ℤ}
    (hlo : -2 ^ w ≤ z) (hhi : z < 2 ^ w) : wrapS (w + 1) z = z := by
  have hpow : ((2 ^ (w + 1) : ℕ) : ℤ) = 2 * 2 ^ w := by
    push_cast
    ring
  apply Int.bmod_eq_of_le <;> omega

theorem wrapS_mem_range (w : ℕ) (z : ℤ) : -2 ^ w ≤ wrapS (w + 1) z ∧ wrapS (w + 1) z < 2 ^ w := by
  have hpow : ((2 ^ (w + 1) : ℕ) : ℤ) = 2 * 2 ^ w := by
    push_cast
    ring
  have hlo := Int.le_bmod (x := z) (m := 2 ^ (w + 1)) (by positivity)
  have hhi := Int.bmod_lt (x := z) (m := 2 ^ (w + 1)) (by positivity)
  unfold wrapS
  omega

theorem wrapS_eq_self_iff {w : ℕ} {z : ℤ} :
    wrapS (w + 1) z = z ↔ -2 ^ w ≤ z ∧ z < 2 ^ w := by
  constructor
  · intro h
    rw [← h]
    exact wrapS_mem_range w z
  · rintro ⟨hlo, hhi⟩
    exact wrapS_of_range hlo hhi

theorem wrapS_emod (w : ℕ) (z : ℤ) : wrapS w z % 2 ^ w = z % 2 ^ w := by
  have hmod := @Int.bmod_emod z (2 ^ w)
  push_cast at hmod
  exact hmod

/-- The sign of a word is its highest bit. -/
theorem wrapS_neg_iff {w : ℕ} {z : ℤ} : wrapS (w + 1) z < 0 ↔ 2 ^ w ≤ z % 2 ^ (w + 1) := by
  have hpow : (2 : ℤ) ^ (w + 1) = 2 * 2 ^ w := by ring
  obtain ⟨hlo, hhi⟩ := wrapS_mem_range w z
  rw [← wrapS_emod (w + 1) z, hpow]
  by_cases hneg : wrapS (w + 1) z < 0
  · rw [← Int.add_emod_right, Int.emod_eq_of_lt (by omega) (by omega)]
    omega
  · rw [Int.emod_eq_of_lt (by omega) (by omega)]
    omega

theorem wrapS_of_ge {w : ℕ} {z : ℤ} (hlo : 2 ^ w ≤ z) (hhi : z < 3 * 2 ^ w) :
    wrapS (w + 1) z = z - 2 * 2 ^ w := by
  have hpow : ((2 ^ (w + 1) : ℕ) : ℤ) = 2 * 2 ^ w := by
    push_cast
    ring
  rw [wrapS, ← Int.sub_bmod_right, hpow]
  exact wrapS_of_range (by omega) (by omega)

theorem wrapS_natCast {w n : ℕ} (h : n < 2 ^ w) : wrapS (w + 1) n = n := by
  have hcast : (n : ℤ) < 2 ^ w := by exact_mod_cast h
  exact wrapS_of_range (by omega) hcast

theorem toU_natCast {w n : ℕ} (h : n < 2 ^ w) : toU w n = n := by
  have hcast : (n : ℤ) < 2 ^ w := by exact_mod_cast h
  rw [toU, Int.emod_eq_of_lt (by omega) hcast]
  simp

end MachineWord
