import Mathlib.Tactic.FieldSimp
import MoonBackend.Proofs.Float.Exact
import MoonBackend.Proofs.Text.Numeral

/-!
# Literals of decimals

A literal is a sign, digits, and perhaps a point with more digits after it. The reader accepts
exactly the literals whose digits are a positive 32-bit word, and what it answers denotes the number
that the literal spells: the leading zeros that the mantissa loses are taken off the exponent, so
that the last digit keeps its place behind the point.
-/

namespace MoonBackend

open Text

namespace Decimal

/-- A decimal literal, part by part. -/
structure Literal where
  negative : Bool
  whole : List (Fin 10)
  /-- The digits after the point, if there is one. -/
  behind : Option (List (Fin 10))
  hasDigit : whole ++ behind.getD [] ≠ []

namespace Literal

def frac (lit : Literal) : List (Fin 10) := lit.behind.getD []

def digits (lit : Literal) : List (Fin 10) := lit.whole ++ lit.frac

def spell (ds : List (Fin 10)) : List Char := ds.map fun d : Fin 10 => Nat.digitChar d

/-- What is written from the first digit on. -/
def body (lit : Literal) : List Char :=
  spell lit.whole ++
    match lit.behind with
    | none => []
    | some ds => '.' :: spell ds

def text (lit : Literal) : String :=
  String.ofList (if lit.negative then '-' :: lit.body else lit.body)

def number (ds : List (Fin 10)) : ℕ := ds.foldl (fun (n : ℕ) (d : Fin 10) => n * 10 + d) 0

/-- The integer as which all digits read, with the sign. -/
def mantissa (lit : Literal) : ℤ := if lit.negative then -number lit.digits else number lit.digits

/-- What digits behind a point are worth. -/
def fraction : List (Fin 10) → ℚ
  | [] => 0
  | d :: ds => (d + fraction ds) / 10

/-- The number that a literal spells. -/
def toRat (lit : Literal) : ℚ :=
  (if lit.negative then -1 else 1) * (number lit.whole + fraction lit.frac)

/-! ### Digits -/

theorem isDigit_digitChar (d : Fin 10) : (Nat.digitChar d).isDigit = true := by
  revert d
  decide

theorem digitChar_beq_zero (d : Fin 10) : (Nat.digitChar d == '0') = (d == 0) := by
  revert d
  decide

theorem isDigit_of_mem_spell {ds : List (Fin 10)} {c : Char} (h : c ∈ spell ds) :
    c.isDigit = true := by
  obtain ⟨d, -, rfl⟩ := List.mem_map.1 h
  exact isDigit_digitChar d

theorem ne_point_of_isDigit {c : Char} (h : c.isDigit = true) : (c != '.') = true := by
  rw [bne_iff_ne]
  rintro rfl
  exact absurd h (by decide)

@[simp] theorem length_spell (ds : List (Fin 10)) : (spell ds).length = ds.length :=
  List.length_map _

theorem spell_append (ds es : List (Fin 10)) : spell (ds ++ es) = spell ds ++ spell es :=
  List.map_append

theorem exists_digitChar {c : Char} (h : c.isDigit = true) : ∃ d : Fin 10, Nat.digitChar d = c := by
  obtain ⟨h0, h1⟩ := isDigit_range h
  have hall : ∀ d : Fin 10, Nat.digitChar d = Char.ofNat (d + 48) := by decide
  refine ⟨⟨c.toNat - 48, by omega⟩, ?_⟩
  rw [hall]
  show Char.ofNat (c.toNat - 48 + 48) = c
  rw [Nat.sub_add_cancel h0, Char.ofNat_toNat]

theorem exists_spell {cs : List Char} (h : ∀ c ∈ cs, c.isDigit = true) : ∃ ds, spell ds = cs := by
  induction cs with
  | nil => exact ⟨[], rfl⟩
  | cons c cs ih =>
    obtain ⟨ds, rfl⟩ := ih fun x hx => h x (List.mem_cons_of_mem _ hx)
    obtain ⟨d, rfl⟩ := exists_digitChar (h c List.mem_cons_self)
    exact ⟨d :: ds, rfl⟩

/-! ### Numbers -/

theorem foldl_digits (ds : List (Fin 10)) (n : ℕ) :
    ds.foldl (fun (n : ℕ) (d : Fin 10) => n * 10 + d) n = n * 10 ^ ds.length + number ds := by
  induction ds generalizing n with
  | nil => simp [number]
  | cons d ds ih =>
    have hcons : number (d :: ds) = (0 * 10 + d) * 10 ^ ds.length + number ds := ih _
    rw [List.foldl_cons, ih, hcons, List.length_cons, pow_succ]
    ring

theorem number_cons (d : Fin 10) (ds : List (Fin 10)) :
    number (d :: ds) = d * 10 ^ ds.length + number ds := by
  rw [number, List.foldl_cons, foldl_digits]
  ring

theorem number_append (ds es : List (Fin 10)) :
    number (ds ++ es) = number ds * 10 ^ es.length + number es := by
  rw [number, List.foldl_append, foldl_digits]
  rfl

theorem number_lt (ds : List (Fin 10)) : number ds < 10 ^ ds.length := by
  induction ds with
  | nil => exact Nat.one_pos
  | cons d ds ih =>
    have hd : (d : ℕ) * 10 ^ ds.length ≤ 9 * 10 ^ ds.length :=
      Nat.mul_le_mul_right _ (Nat.le_of_lt_succ d.isLt)
    rw [number_cons, List.length_cons, pow_succ]
    omega

theorem digitsFrom?_spell (ds : List (Fin 10)) (n : ℕ) :
    digitsFrom? 10 n (spell ds) = some (ds.foldl (fun (n : ℕ) (d : Fin 10) => n * 10 + d) n) := by
  induction ds generalizing n with
  | nil => rfl
  | cons d ds ih =>
    show digitsFrom? 10 n (Nat.digitChar d :: spell ds) = _
    rw [digitsFrom?, digitValue?_digitChar d.isLt]
    simp only [d.isLt, if_true]
    exact ih _

theorem natDecimal?_spell {ds : List (Fin 10)} (h : ds ≠ []) :
    natDecimal? (spell ds) = some (number ds) := by
  unfold natDecimal?
  rw [if_neg (by simpa [spell] using h)]
  exact digitsFrom?_spell ds 0

theorem fraction_eq (ds : List (Fin 10)) : fraction ds = number ds / 10 ^ ds.length := by
  induction ds with
  | nil => simp [fraction, number]
  | cons d ds ih =>
    rw [fraction, ih, number_cons, List.length_cons, pow_succ]
    push_cast
    field_simp

@[simp] theorem natAbs_mantissa (lit : Literal) : lit.mantissa.natAbs = number lit.digits := by
  unfold mantissa
  split
  · omega
  · omega

/-- The point divides the integer as which all digits read. -/
theorem toRat_eq (lit : Literal) : lit.toRat = lit.mantissa / 10 ^ lit.frac.length := by
  have hnumber : (number lit.whole + fraction lit.frac : ℚ)
      = number lit.digits / 10 ^ lit.frac.length := by
    rw [fraction_eq, digits, number_append]
    push_cast
    field_simp
  rw [toRat, hnumber, mantissa]
  split
  · push_cast
    ring
  · push_cast
    ring

/-! ### Leading zeros -/

/-- The digits without leading zeros; of zeros alone one is left. -/
def significant (ds : List (Fin 10)) : List (Fin 10) :=
  if (ds.dropWhile (· == 0)).isEmpty then [0] else ds.dropWhile (· == 0)

theorem number_dropWhile (ds : List (Fin 10)) : number (ds.dropWhile (· == 0)) = number ds := by
  induction ds with
  | nil => rfl
  | cons d ds ih =>
    rw [List.dropWhile_cons]
    split
    · rename_i hd
      rw [ih, number_cons, beq_iff_eq.1 hd]
      simp
    · rfl

theorem number_significant (ds : List (Fin 10)) : number (significant ds) = number ds := by
  unfold significant
  split
  · rename_i h
    rw [← number_dropWhile ds, List.isEmpty_iff.1 h]
    rfl
  · exact number_dropWhile ds

theorem significant_ne_nil (ds : List (Fin 10)) : significant ds ≠ [] := by
  unfold significant
  split
  · nofun
  · rename_i h
    simpa using h

theorem length_significant_le {ds : List (Fin 10)} (h : ds ≠ []) :
    (significant ds).length ≤ ds.length := by
  unfold significant
  split
  · exact List.length_pos_iff.2 h
  · exact (List.dropWhile_suffix _).length_le

theorem natDigits_number {ds : List (Fin 10)} (h : number ds ≠ 0) :
    natDigits (number ds) = (significant ds).length := by
  have hlt := number_lt (significant ds)
  rw [number_significant] at hlt
  unfold significant at hlt ⊢
  cases hs : ds.dropWhile (· == 0) with
  | nil =>
    rw [← number_dropWhile ds, hs] at h
    exact absurd rfl h
  | cons d rest =>
    rw [hs] at hlt
    simp only [List.isEmpty_cons, Bool.false_eq_true, if_false, List.length_cons] at hlt ⊢
    have hd : d ≠ 0 := by
      have := List.head_dropWhile_not (· == (0 : Fin 10)) (l := ds) (by rw [hs]; nofun)
      simpa [hs] using this
    have hpos : 0 < (d : ℕ) := Nat.pos_of_ne_zero fun h0 => hd (Fin.ext h0)
    have hge : 10 ^ rest.length ≤ number ds := by
      rw [← number_dropWhile ds, hs, number_cons]
      have := Nat.le_mul_of_pos_left (10 ^ rest.length) hpos
      omega
    have hup : natDigits (number ds) ≤ rest.length + 1 := natDigits_le hlt
    have hlow : rest.length < natDigits (number ds) :=
      (Nat.pow_lt_pow_iff_right (by decide)).1 (hge.trans_lt (lt_pow_natDigits _))
    omega

/-! ### Reading a literal -/

theorem takeWhile_body (lit : Literal) : lit.body.takeWhile (· != '.') = spell lit.whole := by
  have hdigits : ∀ c ∈ spell lit.whole, (c != '.') = true :=
    fun c hc => ne_point_of_isDigit (isDigit_of_mem_spell hc)
  unfold body
  rw [List.takeWhile_append_of_pos hdigits]
  cases lit.behind with
  | none => simp
  | some ds => simp

theorem dropWhile_body (lit : Literal) :
    (lit.body.dropWhile (· != '.')).drop 1 = spell lit.frac := by
  have hdigits : ∀ c ∈ spell lit.whole, (c != '.') = true :=
    fun c hc => ne_point_of_isDigit (isDigit_of_mem_spell hc)
  unfold body frac
  rw [List.dropWhile_append_of_pos hdigits]
  cases lit.behind with
  | none => rfl
  | some ds => simp

theorem head?_body (lit : Literal) : (lit.body.head? == some '-') = false := by
  have hdigits : ∀ (ds : List (Fin 10)) (cs : List Char), ds ≠ [] →
      ((spell ds ++ cs).head? == some '-') = false := by
    intro ds cs hds
    obtain ⟨d, ds, rfl⟩ := List.exists_cons_of_ne_nil hds
    have hall : ∀ d : Fin 10, (some (Nat.digitChar d) == some '-') = false := by decide
    exact hall d
  unfold body
  by_cases hw : lit.whole = []
  · rw [hw]
    cases hb : lit.behind with
    | none =>
      have h := lit.hasDigit
      rw [hw, hb] at h
      exact absurd rfl h
    | some ds => rfl
  · exact hdigits _ _ hw

theorem dropWhile_spell (ds : List (Fin 10)) :
    (spell ds).dropWhile (· == '0') = spell (ds.dropWhile (· == 0)) := by
  unfold spell
  rw [List.dropWhile_map]
  congr 2
  funext d
  exact digitChar_beq_zero d

theorem kept_spell (ds : List (Fin 10)) :
    (if ((spell ds).dropWhile (· == '0')).isEmpty then ['0'] else (spell ds).dropWhile (· == '0'))
      = spell (significant ds) := by
  rw [dropWhile_spell, significant, apply_ite spell]
  congr 1
  rw [spell, List.isEmpty_map]

/-- What the reader answers for a literal. -/
theorem parse_text (lit : Literal) :
    parse lit.text =
      if number lit.digits < 2 ^ 31 then
        .ok ⟨Int64.ofInt lit.mantissa,
          Int64.ofInt (lit.whole.length - (lit.digits.length - (significant lit.digits).length : ℕ))⟩
      else .error (.outOfRange lit.text) := by
  have hsign : (lit.text.toList.head? == some '-') = lit.negative := by
    unfold text
    rw [String.toList_ofList]
    cases lit.negative with
    | true => rfl
    | false => exact head?_body lit
  have hbody : (if lit.negative then lit.text.toList.tail else lit.text.toList) = lit.body := by
    unfold text
    rw [String.toList_ofList]
    cases lit.negative with
    | true => rfl
    | false => rfl
  have hdigits : (spell lit.digits).all Char.isDigit = true :=
    List.all_eq_true.2 fun c hc => isDigit_of_mem_spell hc
  have hne : (spell lit.digits).isEmpty = false := by
    rw [spell, List.isEmpty_map]
    exact List.isEmpty_eq_false_iff.2 lit.hasDigit
  unfold parse
  simp only [hsign, hbody, takeWhile_body, dropWhile_body, ← spell_append]
  rw [show lit.whole ++ lit.frac = lit.digits from rfl]
  simp only [hne, hdigits, kept_spell, natDecimal?_spell (significant_ne_nil _), number_significant]
  have hbound : wordBound 32 = 2 ^ 31 := rfl
  rw [Option.bind_some]
  simp only [Bool.not_true, Bool.or_self, Bool.false_eq_true, if_false, length_spell]
  by_cases hlt : number lit.digits < 2 ^ 31
  · have hfit : fitting? 32 (number lit.digits : ℤ) = some (number lit.digits : ℤ) :=
      fitting?_eq_some_iff.2 ⟨rfl, by omega, by omega⟩
    rw [hfit, if_pos hlt]
    rfl
  · have hfit : fitting? 32 (number lit.digits : ℤ) = none := by
      unfold fitting?
      rw [if_neg (by omega)]
    rw [hfit, if_neg hlt]

theorem exists_body {cs : List Char}
    (hne : cs.takeWhile (· != '.') ++ (cs.dropWhile (· != '.')).drop 1 ≠ [])
    (hdigits : ∀ c ∈ cs.takeWhile (· != '.') ++ (cs.dropWhile (· != '.')).drop 1,
      c.isDigit = true) (negative : Bool) :
    ∃ lit : Literal, lit.negative = negative ∧ lit.body = cs := by
  obtain ⟨whole, hwhole⟩ := exists_spell fun c hc => hdigits c (List.mem_append_left _ hc)
  obtain ⟨frac, hfrac⟩ := exists_spell fun c hc => hdigits c (List.mem_append_right _ hc)
  have hsplit := List.takeWhile_append_dropWhile (p := (· != '.')) (l := cs)
  rw [← hwhole, ← hfrac] at hne
  rw [← hwhole] at hsplit
  cases hd : cs.dropWhile (· != '.') with
  | nil =>
    rw [hd] at hfrac hsplit
    obtain rfl : frac = [] := List.map_eq_nil_iff.1 hfrac
    refine ⟨⟨negative, whole, none, fun h => hne ?_⟩, rfl, hsplit⟩
    rw [← spell_append, show whole ++ [] = [] from h]
    rfl
  | cons c rest =>
    obtain rfl : c = '.' := by
      have h := List.head_dropWhile_not (· != '.') (l := cs) (by rw [hd]; nofun)
      simpa [hd] using h
    rw [hd] at hfrac hsplit
    refine ⟨⟨negative, whole, some frac, fun h => hne ?_⟩, rfl, ?_⟩
    · rw [← spell_append, show whole ++ frac = [] from h]
      rfl
    · show spell whole ++ '.' :: spell frac = cs
      rw [hfrac]
      exact hsplit

/-- Only literals are accepted. -/
theorem exists_text {text : String} {v : Decimal} (h : parse text = .ok v) :
    ∃ lit : Literal, lit.text = text := by
  unfold parse at h
  dsimp only at h
  generalize hcs : (if (text.toList.head? == some '-') = true then text.toList.tail
    else text.toList) = cs at h
  split at h
  · cases h
  · rename_i hcheck
    simp only [Bool.or_eq_true, Bool.not_eq_true', not_or, Bool.not_eq_false,
      List.all_eq_true, List.isEmpty_iff] at hcheck
    obtain ⟨hne, hdigits⟩ := hcheck
    obtain ⟨lit, hneg, hbody⟩ := exists_body hne hdigits (text.toList.head? == some '-')
    refine ⟨lit, ?_⟩
    unfold Literal.text
    rw [hneg, hbody, ← hcs]
    split
    · rename_i hsign
      have hcons : '-' :: text.toList.tail = text.toList := by
        cases hcs : text.toList with
        | nil =>
          rw [hcs] at hsign
          cases hsign
        | cons c cs =>
          rw [hcs] at hsign
          rw [Option.some.inj (beq_iff_eq.1 hsign)]
          rfl
      rw [hcons, String.ofList_toList]
    · exact String.ofList_toList

/-! ### The number that is read -/

theorem exponent_sub_digits (lit : Literal) (h : number lit.digits ≠ 0) :
    (lit.whole.length : ℤ) - (lit.digits.length - (significant lit.digits).length : ℕ)
      - natDigits (number lit.digits) = -lit.frac.length := by
  have hle := length_significant_le lit.hasDigit
  have hsum : lit.digits.length = lit.whole.length + lit.frac.length := List.length_append
  rw [natDigits_number h]
  show (lit.whole.length : ℤ) - (lit.digits.length - (significant lit.digits).length : ℕ)
    - ((significant lit.digits).length : ℕ) = _
  have hle : (significant lit.digits).length ≤ lit.digits.length := hle
  omega

theorem toRat_of_parse {lit : Literal} {v : Decimal} (hlen : lit.digits.length < 2 ^ 63)
    (h : parse lit.text = .ok v) : v.toRat = lit.toRat := by
  rw [parse_text] at h
  by_cases hlt : number lit.digits < 2 ^ 31
  · rw [if_pos hlt] at h
    cases h
    have hsum : lit.digits.length = lit.whole.length + lit.frac.length := List.length_append
    have habs := natAbs_mantissa lit
    have hmantissa : (Int64.ofInt lit.mantissa).toInt = lit.mantissa :=
      Int64.toInt_ofInt_of_le (by omega) (by omega)
    have hdigits : (Decimal.digits (Int64.ofInt lit.mantissa)).toInt = natDigits (number lit.digits) := by
      rw [toInt_digits_of_ne (by omega), hmantissa, habs]
    have hexponent : (Int64.ofInt (lit.whole.length
        - (lit.digits.length - (significant lit.digits).length : ℕ))).toInt
          = lit.whole.length - (lit.digits.length - (significant lit.digits).length : ℕ) :=
      Int64.toInt_ofInt_of_le (by omega) (by omega)
    rw [toRat_eq, Decimal.toRat, hmantissa, hdigits, hexponent]
    by_cases hz : number lit.digits = 0
    · have hzero : lit.mantissa = 0 := Int.natAbs_eq_zero.1 (habs.trans hz)
      simp [hzero]
    · rw [exponent_sub_digits lit hz, zpow_neg, zpow_natCast]
      rfl
  · rw [if_neg hlt] at h
    cases h

theorem length_digits_le (lit : Literal) : lit.digits.length ≤ lit.text.length := by
  have hbody : lit.digits.length ≤ lit.body.length := by
    unfold digits frac body
    rw [List.length_append, List.length_append, length_spell]
    cases lit.behind with
    | none => exact Nat.le_refl _
    | some ds =>
      show lit.whole.length + ds.length ≤ lit.whole.length + ((spell ds).length + 1)
      rw [length_spell]
      omega
  unfold text
  rw [String.length_ofList]
  split
  · exact Nat.le_succ_of_le hbody
  · exact hbody

/-- The reader accepts exactly the literals whose digits read as a positive 32-bit word, and what it
gives is the number that the literal spells. A text has fewer than 2^63 characters. -/
theorem parse_reads (text : String) :
    ((∃ v, parse text = .ok v) ↔ ∃ lit : Literal, lit.text = text ∧ number lit.digits ≤ 2 ^ 31 - 1)
      ∧ (text.length < 2 ^ 63 → ∀ v, parse text = .ok v → ∀ lit : Literal, lit.text = text →
        v.toRat = lit.toRat) := by
  refine ⟨⟨?_, ?_⟩, ?_⟩
  · rintro ⟨v, hv⟩
    obtain ⟨lit, rfl⟩ := exists_text hv
    refine ⟨lit, rfl, ?_⟩
    rw [parse_text] at hv
    by_cases hlt : number lit.digits < 2 ^ 31
    · omega
    · rw [if_neg hlt] at hv
      cases hv
  · rintro ⟨lit, rfl, hle⟩
    rw [parse_text, if_pos (by omega)]
    exact ⟨_, rfl⟩
  · rintro hlen v hv lit rfl
    exact toRat_of_parse (lit.length_digits_le.trans_lt hlen) hv

/-- Zeros that are lost on both sides of the point. -/
theorem parse_reads_zeros :
    parse "-000.0500" = .ok ⟨-500, -1⟩ ∧ "-000.0500".length < 2 ^ 63
      ∧ Decimal.toRat ⟨-500, -1⟩ = -1 / 20 := by
  have hparse : parse "-000.0500" = .ok ⟨-500, -1⟩ := rfl
  have hlen : "-000.0500".length < 2 ^ 63 := by decide
  have htext : text ⟨true, [0, 0, 0], some [0, 5, 0, 0], by decide⟩ = "-000.0500" := by decide
  have hvalue : mantissa ⟨true, [0, 0, 0], some [0, 5, 0, 0], by decide⟩ = -500 := by decide
  refine ⟨hparse, hlen, ?_⟩
  rw [(parse_reads "-000.0500").2 hlen _ hparse _ htext, toRat_eq, hvalue]
  norm_num [frac]

end Literal

end Decimal

end MoonBackend
