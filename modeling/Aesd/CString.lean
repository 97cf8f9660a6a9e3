import Mathlib

/-!
# C strings in memory

A pointer is given by the bytes from it on, as far as the memory behind it goes;
past the end a byte reads as zero.  The two functions below read on until they
find what stops them, whoever owns the bytes.
-/

namespace CString

/-- `strncmp`: at most `n` characters are compared, and none after a zero. -/
def strncmp : List UInt8 → List UInt8 → ℕ → ℤ
  | _, _, 0 => 0
  | s, t, n + 1 =>
      let a := s.headD 0
      let b := t.headD 0
      if a ≠ b then (a.toNat : ℤ) - b.toNat
      else if a = 0 then 0
      else strncmp s.tail t.tail n

def isSpace (b : UInt8) : Bool := b == 32 || (9 ≤ b && b ≤ 13)

def isDigit (b : UInt8) : Bool := 48 ≤ b && b ≤ 57

def decimal (digits : List UInt8) : ℕ := digits.foldl (fun n d ↦ 10 * n + (d.toNat - 48)) 0

def sign : List UInt8 → Bool × List UInt8
  | 45 :: s => (true, s)
  | 43 :: s => (false, s)
  | s => (false, s)

/-- `strtoul` in base ten with a 64-bit `unsigned long`: the value, and the bytes
from `*endptr` on. -/
def strtoul (s : List UInt8) : ℕ × List UInt8 :=
  let (negative, body) := sign (s.dropWhile isSpace)
  let digits := body.takeWhile isDigit
  if digits = [] then (0, s)
  else
    let n := decimal digits
    let value := if 2 ^ 64 ≤ n then 2 ^ 64 - 1 else if negative then (2 ^ 64 - n) % 2 ^ 64 else n
    (value, body.dropWhile isDigit)

theorem strncmp_eq_zero_iff {text : List UInt8} (hzero : 0 ∉ text) (s : List UInt8) :
    strncmp s text text.length = 0 ↔ text <+: s := by
  induction text generalizing s with
  | nil => simp [strncmp]
  | cons b text ih =>
      have hb : b ≠ 0 := fun h ↦ hzero (h ▸ List.mem_cons_self)
      have htail : 0 ∉ text := fun h ↦ hzero (List.mem_cons_of_mem _ h)
      cases s with
      | nil =>
          have hne : b.toNat ≠ 0 := fun h ↦ hb (UInt8.toNat_inj.mp h)
          simp [strncmp, Ne.symm hb, hne]
      | cons a s =>
          by_cases hab : a = b
          · subst hab
            simp [strncmp, hb, ih htail]
          · have hne : (a.toNat : ℤ) - b.toNat ≠ 0 := by
              intro h
              exact hab (UInt8.toNat_inj.mp (by omega))
            simp [strncmp, hab, hne, Ne.symm hab]

/-! ## How far `strtoul` looks -/

/-- The sign, and the bytes from which `strtoul` takes its digits. -/
def scan (s : List UInt8) : Bool × List UInt8 := sign (s.dropWhile isSpace)

def scanDigits (s : List UInt8) : List UInt8 := (scan s).2.takeWhile isDigit

/-- What `strtoul` makes of a numeral that stands for `n`. -/
def ulong (negative : Bool) (n : ℕ) : ℕ :=
  if 2 ^ 64 ≤ n then 2 ^ 64 - 1 else if negative then (2 ^ 64 - n) % 2 ^ 64 else n

theorem strtoul_eq (s : List UInt8) :
    strtoul s = if scanDigits s = [] then (0, s)
      else (ulong (scan s).1 (decimal (scanDigits s)), (scan s).2.dropWhile isDigit) := rfl

/-- The scan of a number stops at a byte of `s`, so nothing behind `s` matters. -/
def Terminated (s : List UInt8) : Prop := (scan s).2.dropWhile isDigit ≠ []

instance (s : List UInt8) : Decidable (Terminated s) := inferInstanceAs (Decidable (_ ≠ _))

theorem sign_append {s : List UInt8} (hs : s ≠ []) (t : List UInt8) :
    sign (s ++ t) = ((sign s).1, (sign s).2 ++ t) := by
  cases s with
  | nil => exact absurd rfl hs
  | cons a s =>
      by_cases hminus : a = 45
      · subst hminus
        rfl
      · by_cases hplus : a = 43
        · subst hplus
          rfl
        · simp [sign, hminus, hplus]

/-- A byte that neither is skipped in front of a number nor is its sign. -/
def opens (b : UInt8) : Bool := !isSpace b && b != 45 && b != 43

theorem sign_cons_of_opens {b : UInt8} (hb : opens b = true) (t : List UInt8) :
    sign (b :: t) = (false, b :: t) := by
  simp only [opens, Bool.and_eq_true, bne_iff_ne] at hb
  simp [sign, hb.1.2, hb.2]

theorem scan_append_of_ne_nil {s : List UInt8} (hs : s.dropWhile isSpace ≠ []) (t : List UInt8) :
    scan (s ++ t) = ((scan s).1, (scan s).2 ++ t) := by
  rw [scan, List.dropWhile_append, if_neg (by simpa using hs), sign_append hs]
  rfl

theorem scan_append_cons (s : List UInt8) {b : UInt8} (hb : opens b = true) (t : List UInt8) :
    scan (s ++ b :: t) = ((scan s).1, (scan s).2 ++ b :: t) := by
  by_cases hs : s.dropWhile isSpace = []
  · have hspace : isSpace b = false := by
      simp only [opens, Bool.and_eq_true, Bool.not_eq_true'] at hb
      exact hb.1.1
    rw [scan, scan, List.dropWhile_append, if_pos (by simpa using hs), hs,
      List.dropWhile_cons_of_neg (by simp [hspace]), sign_cons_of_opens hb]
    rfl
  · exact scan_append_of_ne_nil hs _

theorem dropWhile_isSpace_ne_nil {s : List UInt8} (h : (scan s).2 ≠ []) :
    s.dropWhile isSpace ≠ [] := by
  intro hnil
  rw [scan, hnil] at h
  exact h rfl

/-- Behind a terminated number the scan does not look. -/
theorem Terminated.strtoul_append {s : List UInt8} (h : Terminated s) (t : List UInt8) :
    strtoul (s ++ t) = ((strtoul s).1, (strtoul s).2 ++ t) := by
  have hbody : (scan s).2 ≠ [] := by
    intro hnil
    rw [Terminated, hnil] at h
    exact h rfl
  have hscan := scan_append_of_ne_nil (dropWhile_isSpace_ne_nil hbody) t
  have hstop : ¬ ((scan s).2.takeWhile isDigit).length = (scan s).2.length := by
    intro hlen
    have hsplit := congrArg List.length
      (List.takeWhile_append_dropWhile (p := isDigit) (l := (scan s).2))
    rw [List.length_append, hlen] at hsplit
    exact h (List.eq_nil_of_length_eq_zero (by omega))
  have hdigits : scanDigits (s ++ t) = scanDigits s := by
    rw [scanDigits, hscan, List.takeWhile_append, if_neg hstop]
    rfl
  have hrest : (scan (s ++ t)).2.dropWhile isDigit = (scan s).2.dropWhile isDigit ++ t := by
    rw [hscan, List.dropWhile_append, if_neg (by rw [List.isEmpty_iff]; exact h)]
  rw [strtoul_eq, strtoul_eq, hdigits, hrest, hscan]
  split <;> rfl

theorem scan_snd_of_not_terminated {s : List UInt8} (h : ¬ Terminated s) :
    (scan s).2 = scanDigits s := by
  rw [Terminated, not_not] at h
  conv_lhs => rw [← List.takeWhile_append_dropWhile (p := isDigit) (l := (scan s).2), h]
  exact List.append_nil _

theorem opens_of_isDigit {b : UInt8} (h : isDigit b = true) : opens b = true := by
  simp only [isDigit, Bool.and_eq_true, decide_eq_true_eq, UInt8.le_iff_toNat_le] at h
  have hne : ∀ c : UInt8, c.toNat < 48 → b ≠ c := by
    rintro c hc rfl
    exact absurd h.1 (not_le.mpr hc)
  simp only [opens, isSpace, Bool.and_eq_true, Bool.not_eq_true', Bool.or_eq_false_iff, bne_iff_ne,
    beq_eq_false_iff_ne, Bool.and_eq_false_iff, decide_eq_false_iff_not, UInt8.le_iff_toNat_le]
  refine ⟨⟨⟨hne 32 (by decide), Or.inr ?_⟩, hne 45 (by decide)⟩, hne 43 (by decide)⟩
  exact not_le.mpr (lt_of_lt_of_le (by decide) h.1)

/-- An unterminated number goes on in what is appended to it. -/
theorem strtoul_append_numeral {s : List UInt8} (hs : ¬ Terminated s) {ds : List UInt8}
    (hds : ∀ d ∈ ds, isDigit d = true) {c : UInt8} (hopens : ds = [] → opens c = true)
    (hc : isDigit c = false) (t : List UInt8) :
    strtoul (s ++ (ds ++ c :: t)) =
      if scanDigits s ++ ds = [] then (0, s ++ (ds ++ c :: t))
      else (ulong (scan s).1 (decimal (scanDigits s ++ ds)), c :: t) := by
  have hscan : scan (s ++ (ds ++ c :: t)) = ((scan s).1, scanDigits s ++ (ds ++ c :: t)) := by
    rw [← scan_snd_of_not_terminated hs]
    cases ds with
    | nil => exact scan_append_cons s (hopens rfl) t
    | cons d ds =>
        exact scan_append_cons s (opens_of_isDigit (hds d List.mem_cons_self)) (ds ++ c :: t)
  have hall : ∀ d ∈ scanDigits s ++ ds, isDigit d = true := by
    intro d hd
    rcases List.mem_append.mp hd with hd | hd
    · exact List.mem_takeWhile_imp hd
    · exact hds d hd
  have htake : scanDigits (s ++ (ds ++ c :: t)) = scanDigits s ++ ds := by
    rw [scanDigits, hscan, ← List.append_assoc, List.takeWhile_append_of_pos hall,
      List.takeWhile_cons_of_neg (by simp [hc]), List.append_nil]
  have hdrop : (scan (s ++ (ds ++ c :: t))).2.dropWhile isDigit = c :: t := by
    rw [hscan, ← List.append_assoc, List.dropWhile_append_of_pos hall,
      List.dropWhile_cons_of_neg (by simp [hc])]
  rw [strtoul_eq, htake, hdrop, hscan]

theorem decimal_concat (ds : List UInt8) (d : UInt8) :
    decimal (ds ++ [d]) = 10 * decimal ds + (d.toNat - 48) := by
  rw [decimal, List.foldl_append]
  rfl

theorem decimal_le_append (ds es : List UInt8) :
    decimal ds * 10 ^ es.length ≤ decimal (ds ++ es) := by
  induction es using List.reverseRecOn with
  | nil => simp
  | append_singleton es d ih =>
      rw [← List.append_assoc, decimal_concat, List.length_append, List.length_singleton, pow_succ]
      nlinarith

/-! ## Two numbers with a byte between them -/

/-- What two calls of `strtoul` read, each narrowed to 32 bits. -/
def scanPair (s : List UInt8) : UInt32 × UInt32 :=
  let (first, endPtr) := strtoul s
  let (second, _) := strtoul (endPtr.drop 1)
  (UInt32.ofNat first, UInt32.ofNat second)

/-- The number reads as `ULONG_MAX`, narrowed, and one more digit makes it overflow. -/
def Saturated (s : List UInt8) : Prop :=
  2 ^ 64 ≤ 10 * decimal (scanDigits s) ∧
    UInt32.ofNat (strtoul s).1 = UInt32.ofNat (2 ^ 64 - 1)

instance (s : List UInt8) : Decidable (Saturated s) := inferInstanceAs (Decidable (_ ∧ _))

/-- Both numbers are decided by `s`: the first one ends in it, and the second one ends
in it or is as large as it can get. -/
def Settled (s : List UInt8) : Prop :=
  Terminated s ∧ (Terminated ((strtoul s).2.drop 1) ∨ Saturated ((strtoul s).2.drop 1))

instance (s : List UInt8) : Decidable (Settled s) := inferInstanceAs (Decidable (_ ∧ _))

theorem ofNat_eq_ofNat_iff (a b : ℕ) :
    UInt32.ofNat a = UInt32.ofNat b ↔ a % 2 ^ 32 = b % 2 ^ 32 := by
  rw [← UInt32.toNat_inj, UInt32.toNat_ofNat', UInt32.toNat_ofNat']

theorem scanDigits_append_of_not_terminated {s : List UInt8} (h : ¬ Terminated s)
    (hne : scanDigits s ≠ []) (t : List UInt8) :
    scanDigits (s ++ t) = scanDigits s ++ t.takeWhile isDigit ∧ (scan (s ++ t)).1 = (scan s).1 := by
  have hbody : (scan s).2 ≠ [] := by
    rwa [scan_snd_of_not_terminated h]
  have hscan := scan_append_of_ne_nil (dropWhile_isSpace_ne_nil hbody) t
  refine ⟨?_, by rw [hscan]⟩
  rw [scanDigits, hscan, scan_snd_of_not_terminated h]
  exact List.takeWhile_append_of_pos fun d hd ↦ List.mem_takeWhile_imp hd

theorem Saturated.strtoul_append {s : List UInt8} (h : Saturated s) (t : List UInt8) :
    UInt32.ofNat (strtoul (s ++ t)).1 = UInt32.ofNat (2 ^ 64 - 1) := by
  obtain ⟨hlarge, hvalue⟩ := h
  by_cases hterm : Terminated s
  · rw [hterm.strtoul_append]
    exact hvalue
  · have hne : scanDigits s ≠ [] := by
      intro hnil
      rw [hnil] at hlarge
      exact absurd hlarge (by decide)
    obtain ⟨hdigits, hsign⟩ := scanDigits_append_of_not_terminated hterm hne t
    have hne' : scanDigits s ++ t.takeWhile isDigit ≠ [] := by simp [hne]
    rw [strtoul_eq, hdigits, hsign, if_neg hne']
    cases htail : t.takeWhile isDigit with
    | nil =>
        rw [strtoul_eq, if_neg hne] at hvalue
        rwa [List.append_nil]
    | cons d ds =>
        have hle := decimal_le_append (scanDigits s) (d :: ds)
        have hpow : 10 ≤ 10 ^ (d :: ds).length := Nat.le_self_pow (by simp) 10
        have hover : 2 ^ 64 ≤ decimal (scanDigits s ++ d :: ds) := by
          calc 2 ^ 64 ≤ 10 * decimal (scanDigits s) := hlarge
            _ = decimal (scanDigits s) * 10 := Nat.mul_comm ..
            _ ≤ decimal (scanDigits s) * 10 ^ (d :: ds).length := Nat.mul_le_mul_left _ hpow
            _ ≤ decimal (scanDigits s ++ d :: ds) := hle
        simp only [ulong, if_pos hover]

theorem Terminated.strtoul_snd_ne_nil {s : List UInt8} (h : Terminated s) : (strtoul s).2 ≠ [] := by
  rw [strtoul_eq]
  split
  · rintro rfl
    exact h rfl
  · exact h

theorem Terminated.scanPair_append {s : List UInt8} (h : Terminated s) (t : List UInt8) :
    scanPair (s ++ t) = (UInt32.ofNat (strtoul s).1,
      UInt32.ofNat (strtoul ((strtoul s).2.drop 1 ++ t)).1) := by
  have hdrop : ((strtoul s).2 ++ t).drop 1 = (strtoul s).2.drop 1 ++ t :=
    List.drop_append_of_le_length (List.length_pos_of_ne_nil h.strtoul_snd_ne_nil)
  simp only [scanPair, h.strtoul_append t, hdrop]

theorem Settled.scanPair_append {s : List UInt8} (h : Settled s) (t₁ t₂ : List UInt8) :
    scanPair (s ++ t₁) = scanPair (s ++ t₂) := by
  obtain ⟨hfirst, hsecond⟩ := h
  rw [hfirst.scanPair_append, hfirst.scanPair_append]
  rcases hsecond with hterm | hsat
  · rw [hterm.strtoul_append, hterm.strtoul_append]
  · rw [hsat.strtoul_append, hsat.strtoul_append]

/-! ### Numbers that can still change -/

theorem not_terminated_nil : ¬ Terminated [] := by decide

theorem strtoul_append_digit {s : List UInt8} (hs : ¬ Terminated s) {d : UInt8}
    (hd : isDigit d = true) (t : List UInt8) :
    strtoul (s ++ d :: 44 :: t) =
      (ulong (scan s).1 (10 * decimal (scanDigits s) + (d.toNat - 48)), 44 :: t) := by
  have hdigits : ∀ b ∈ [d], isDigit b = true := by simpa using hd
  have hnumeral := strtoul_append_numeral hs hdigits (c := 44) (by simp) (by decide) t
  rw [if_neg (by simp), decimal_concat] at hnumeral
  exact hnumeral

theorem strtoul_append_comma {s : List UInt8} (hs : ¬ Terminated s) (hne : scanDigits s ≠ [])
    (t : List UInt8) : strtoul (s ++ 44 :: t) = ((strtoul s).1, 44 :: t) := by
  have hdigits : ∀ b ∈ ([] : List UInt8), isDigit b = true := by simp
  have hnumeral := strtoul_append_numeral hs hdigits (c := 44) (fun _ ↦ by decide) (by decide) t
  rw [List.nil_append, List.append_nil, if_neg hne] at hnumeral
  rw [hnumeral, strtoul_eq, if_neg hne]

theorem ofNat_ulong_succ_ne (negative : Bool) {n : ℕ} (h : n + 1 < 2 ^ 64) :
    UInt32.ofNat (ulong negative n) ≠ UInt32.ofNat (ulong negative (n + 1)) := by
  have hfits : ¬ 2 ^ 64 ≤ n := by omega
  have hfits' : ¬ 2 ^ 64 ≤ n + 1 := by omega
  rw [Ne, ofNat_eq_ofNat_iff]
  cases negative with
  | false =>
      simp only [ulong, if_neg hfits, if_neg hfits', Bool.false_eq_true, if_false]
      omega
  | true =>
      simp only [ulong, if_neg hfits, if_neg hfits', if_true]
      omega

/-- What follows decides a number that neither ends nor is as large as it can get. -/
theorem exists_strtoul_ne {s : List UInt8} (hs : ¬ Terminated s) (hsat : ¬ Saturated s) (m : ℕ) :
    ∃ t₁ t₂ : List UInt8, m ≤ t₁.length ∧ m ≤ t₂.length ∧
      UInt32.ofNat (strtoul (s ++ t₁)).1 ≠ UInt32.ofNat (strtoul (s ++ t₂)).1 := by
  let pad : List UInt8 := List.replicate m 0
  have hpad : pad.length = m := List.length_replicate
  by_cases hlarge : 2 ^ 64 ≤ 10 * decimal (scanDigits s)
  · -- a further zero makes the number overflow
    refine ⟨44 :: pad, 48 :: 44 :: pad, by simp [hpad], by simp only [List.length_cons]; omega, ?_⟩
    have hne : scanDigits s ≠ [] := by
      intro hnil
      rw [hnil] at hlarge
      exact absurd hlarge (by decide)
    have hover : (strtoul (s ++ 48 :: 44 :: pad)).1 = 2 ^ 64 - 1 := by
      rw [strtoul_append_digit hs (by decide), ulong,
        if_pos (le_trans hlarge (Nat.le_add_right _ _))]
    rw [strtoul_append_comma hs hne, hover]
    exact fun hvalue ↦ hsat ⟨hlarge, hvalue⟩
  · refine ⟨48 :: 44 :: pad, 49 :: 44 :: pad, by simp only [List.length_cons]; omega,
      by simp only [List.length_cons]; omega, ?_⟩
    rw [strtoul_append_digit hs (by decide), strtoul_append_digit hs (by decide)]
    exact ofNat_ulong_succ_ne _ (show 10 * decimal (scanDigits s) + 1 < 2 ^ 64 by omega)

theorem exists_scanPair_ne {s : List UInt8} (h : ¬ Settled s) (m : ℕ) :
    ∃ t₁ t₂ : List UInt8, m ≤ t₁.length ∧ m ≤ t₂.length ∧
      scanPair (s ++ t₁) ≠ scanPair (s ++ t₂) := by
  by_cases hfirst : Terminated s
  · have hsecond : ¬ Terminated ((strtoul s).2.drop 1) ∧ ¬ Saturated ((strtoul s).2.drop 1) :=
      not_or.mp fun hsecond ↦ h ⟨hfirst, hsecond⟩
    obtain ⟨t₁, t₂, hm₁, hm₂, hne⟩ := exists_strtoul_ne hsecond.1 hsecond.2 m
    refine ⟨t₁, t₂, hm₁, hm₂, ?_⟩
    rw [hfirst.scanPair_append, hfirst.scanPair_append]
    exact fun heq ↦ hne (congrArg Prod.snd heq)
  · by_cases hnil : scanDigits s = []
    · have hsat : ¬ Saturated s := by
        rintro ⟨hlarge, -⟩
        rw [hnil] at hlarge
        exact absurd hlarge (by decide)
      obtain ⟨t₁, t₂, hm₁, hm₂, hne⟩ := exists_strtoul_ne hfirst hsat m
      exact ⟨t₁, t₂, hm₁, hm₂, fun heq ↦ hne (congrArg Prod.fst heq)⟩
    · -- the first number ends in what follows, and so does the second
      have hsecond : ∀ t : List UInt8,
          (scanPair (s ++ 44 :: t)).2 = UInt32.ofNat (strtoul t).1 := by
        intro t
        simp only [scanPair, strtoul_append_comma hfirst hnil, List.drop_succ_cons, List.drop_zero]
      obtain ⟨t₁, t₂, hm₁, hm₂, hne⟩ := exists_strtoul_ne not_terminated_nil (by decide) m
      refine ⟨44 :: t₁, 44 :: t₂, by simp only [List.length_cons]; omega,
        by simp only [List.length_cons]; omega, ?_⟩
      intro heq
      have hboth := congrArg Prod.snd heq
      rw [hsecond, hsecond] at hboth
      exact hne hboth

/-! ## Numerals -/

def numeral (n : ℕ) : List UInt8 := (Nat.toDigits 10 n).map fun c ↦ UInt8.ofNat c.toNat

theorem numeral_of_lt {n : ℕ} (h : n < 10) : numeral n = [UInt8.ofNat (48 + n)] := by
  interval_cases n <;> rfl

theorem numeral_of_le {n : ℕ} (h : 10 ≤ n) :
    numeral n = numeral (n / 10) ++ [UInt8.ofNat (48 + n % 10)] := by
  have hlast := numeral_of_lt (Nat.mod_lt n (by decide : 0 < 10))
  rw [numeral, Nat.toDigits_of_lt_base (Nat.mod_lt n (by decide))] at hlast
  rw [numeral, Nat.toDigits_of_base_le (by decide) h, List.map_append]
  exact congrArg _ hlast

theorem digit_toNat {d : ℕ} (h : d < 10) : (UInt8.ofNat (48 + d)).toNat = 48 + d := by
  rw [UInt8.toNat_ofNat']
  omega

theorem isDigit_digit {d : ℕ} (h : d < 10) : isDigit (UInt8.ofNat (48 + d)) = true := by
  interval_cases d <;> rfl

theorem isDigit_of_mem_numeral (n : ℕ) : ∀ b ∈ numeral n, isDigit b = true := by
  induction n using Nat.strong_induction_on with
  | h n ih =>
      by_cases h : n < 10
      · rw [numeral_of_lt h]
        simpa using isDigit_digit h
      · rw [numeral_of_le (not_lt.mp h)]
        intro b hb
        rcases List.mem_append.mp hb with hb | hb
        · exact ih (n / 10) (Nat.div_lt_self (by omega) (by decide)) b hb
        · rw [List.mem_singleton.mp hb]
          exact isDigit_digit (Nat.mod_lt n (by decide))

theorem decimal_numeral (n : ℕ) : decimal (numeral n) = n := by
  induction n using Nat.strong_induction_on with
  | h n ih =>
      by_cases h : n < 10
      · have hdigit := decimal_concat [] (UInt8.ofNat (48 + n))
        rw [digit_toNat h, List.nil_append] at hdigit
        rw [numeral_of_lt h, hdigit]
        simp [decimal]
      · rw [numeral_of_le (not_lt.mp h), decimal_concat, digit_toNat (Nat.mod_lt n (by decide)),
          ih (n / 10) (Nat.div_lt_self (by omega) (by decide))]
        omega

theorem numeral_ne_nil (n : ℕ) : numeral n ≠ [] := by
  by_cases h : n < 10
  · rw [numeral_of_lt h]
    exact List.cons_ne_nil _ _
  · rw [numeral_of_le (not_lt.mp h)]
    simp

theorem length_numeral_le {n k : ℕ} (hk : 0 < k) (h : n < 10 ^ k) : (numeral n).length ≤ k := by
  induction k generalizing n with
  | zero => omega
  | succ k ih =>
      by_cases hn : n < 10
      · rw [numeral_of_lt hn]
        simp
      · have hpos : 0 < k := by
          rcases Nat.eq_zero_or_pos k with rfl | hpos
          · exact absurd h hn
          · exact hpos
        have hdiv : n / 10 < 10 ^ k := by
          rw [pow_succ] at h
          omega
        rw [numeral_of_le (not_lt.mp hn), List.length_append, List.length_singleton]
        exact Nat.succ_le_succ (ih hpos hdiv)

/-- A numeral reads back as the number it was made from. -/
theorem strtoul_numeral {n : ℕ} (h : n < 2 ^ 64) {b : UInt8} (hb : isDigit b = false)
    (t : List UInt8) : strtoul (numeral n ++ b :: t) = (n, b :: t) := by
  have hread := strtoul_append_numeral not_terminated_nil (isDigit_of_mem_numeral n)
    (fun hnil ↦ absurd hnil (numeral_ne_nil n)) hb t
  have hdigits : scanDigits [] = [] := rfl
  rw [hdigits, List.nil_append, List.nil_append, if_neg (numeral_ne_nil n), decimal_numeral, ulong,
    if_neg (by omega)] at hread
  exact hread

theorem scanPair_numerals (x y : UInt32) {b : UInt8} (hb : isDigit b = false) (t : List UInt8) :
    scanPair (numeral x.toNat ++ 44 :: (numeral y.toNat ++ b :: t)) = (x, y) := by
  have hx : x.toNat < 2 ^ 64 := x.toNat_lt.trans (by decide)
  have hy : y.toNat < 2 ^ 64 := y.toNat_lt.trans (by decide)
  have hfirst := strtoul_numeral hx (b := 44) (by decide) (numeral y.toNat ++ b :: t)
  simp only [scanPair, hfirst, List.drop_succ_cons, List.drop_zero, strtoul_numeral hy hb,
    UInt32.ofNat_toNat]

end CString
