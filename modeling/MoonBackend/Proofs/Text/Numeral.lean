import Mathlib
import MoonBackend.Text.Bytes
import MoonBackend.Text.Numeral

/-!
# Reading a written integer back

The decimal text of an integer has no leading zero and no underscore, so both readings of an integer
give it back. The text of a word is at most eleven bytes, none of which is zero.
-/

namespace MoonBackend.Text

theorem digitsFrom?_append (base acc : Nat) (cs ds : List Char) :
    digitsFrom? base acc (cs ++ ds) = (digitsFrom? base acc cs).bind fun n =>
      digitsFrom? base n ds := by
  induction cs generalizing acc with
  | nil => rfl
  | cons c cs ih =>
    simp only [List.cons_append, digitsFrom?]
    cases digitValue? c with
    | none => rfl
    | some d =>
      simp only
      split
      · exact ih _
      · rfl

theorem digitValue?_digitChar {d : Nat} (h : d < 10) : digitValue? d.digitChar = some d := by
  have hall : ∀ d : Fin 10, digitValue? (Nat.digitChar d) = some d.val := by decide
  exact hall ⟨d, h⟩

theorem digits?_toDigits (n : Nat) : digits? 10 (Nat.toDigits 10 n) = some n := by
  induction n using Nat.strongRecOn with
  | ind n ih =>
    by_cases hn : n < 10
    · rw [Nat.toDigits_of_lt_base hn]
      simp [digits?, digitsFrom?, digitValue?_digitChar hn, hn]
    · have hm : n % 10 < 10 := Nat.mod_lt _ (by decide)
      have hdiv := ih (n / 10) (by omega)
      unfold digits? at hdiv ⊢
      rw [Nat.toDigits_of_base_le (by decide) (by omega), digitsFrom?_append, hdiv]
      simp only [Option.bind_some, digitsFrom?, digitValue?_digitChar hm]
      rw [if_pos hm]
      congr 1
      omega

theorem head_toDigits {n : Nat} (hn : 0 < n) : (Nat.toDigits 10 n).head? ≠ some '0' := by
  induction n using Nat.strongRecOn with
  | ind n ih =>
    by_cases hlt : n < 10
    · rw [Nat.toDigits_of_lt_base hlt]
      have hall : ∀ d : Fin 10, 0 < d.val → [Nat.digitChar d].head? ≠ some '0' := by decide
      exact hall ⟨n, hlt⟩ hn
    · have hdiv := ih (n / 10) (by omega) (by omega)
      rw [Nat.toDigits_of_base_le (by decide) (by omega)]
      cases h : Nat.toDigits 10 (n / 10) with
      | nil => exact absurd h Nat.toDigits_ne_nil
      | cons c cs =>
        rw [h] at hdiv
        exact hdiv

theorem natLiteral?_toDigits (n : Nat) : natLiteral? (Nat.toDigits 10 n) = some n := by
  have hno : (Nat.toDigits 10 n).contains '_' = false := by
    simp
  have hfilter : (Nat.toDigits 10 n).filter (· != '_') = Nat.toDigits 10 n := by
    rw [List.filter_eq_self]
    intro c hc
    have hne : c ≠ '_' := fun he => Nat.underscore_not_in_toDigits (he ▸ hc)
    simpa using hne
  have hval := digits?_toDigits n
  rcases Nat.eq_zero_or_pos n with rfl | hn
  · rfl
  · have hhead := head_toDigits hn
    unfold natLiteral?
    rw [hno]
    generalize hcs : Nat.toDigits 10 n = cs at hhead hfilter hval
    simp only [Bool.false_and, Bool.false_eq_true, if_false]
    split
    · exact absurd hcs Nat.toDigits_ne_nil
    · simp at hhead
    · simp at hhead
    · rw [hfilter, hval]

theorem toDigits_head_isDigit (n : Nat) : ∃ c cs, Nat.toDigits 10 n = c :: cs ∧ c.isDigit = true := by
  cases h : Nat.toDigits 10 n with
  | nil => exact absurd h Nat.toDigits_ne_nil
  | cons c cs =>
    exact ⟨c, cs, rfl, Nat.isDigit_of_mem_toDigits (by decide) (by decide) (h ▸ List.mem_cons_self)⟩

theorem toDigits_inj {m n : Nat} (h : Nat.toDigits 10 m = Nat.toDigits 10 n) : m = n := by
  have hm := digits?_toDigits m
  rw [h, digits?_toDigits n] at hm
  exact (Option.some.inj hm).symm

/-- Digits at the end of a text can be told from what stands before them, if that ends in no
digit. -/
theorem append_toDigits_inj {s t : List Char} {c d : Char} (hc : c.isDigit = false)
    (hd : d.isDigit = false) {m n : Nat}
    (h : s ++ c :: Nat.toDigits 10 m = t ++ d :: Nat.toDigits 10 n) : m = n := by
  have hdigits : ∀ (u : List Char) (e : Char) (k : Nat), e.isDigit = false →
      (u ++ e :: Nat.toDigits 10 k).reverse.takeWhile Char.isDigit
        = (Nat.toDigits 10 k).reverse := by
    intro u e k he
    have hall : ∀ x ∈ (Nat.toDigits 10 k).reverse, x.isDigit = true := fun x hx =>
      Nat.isDigit_of_mem_toDigits (by decide) (by decide) (List.mem_reverse.1 hx)
    rw [List.reverse_append, List.reverse_cons, List.append_assoc, List.takeWhile_append_of_pos hall,
      List.singleton_append, List.takeWhile_cons_of_neg (by simp [he]), List.append_nil]
  have hr := congrArg (fun l => l.reverse.takeWhile Char.isDigit) h
  simp only [hdigits _ _ _ hc, hdigits _ _ _ hd] at hr
  exact toDigits_inj (List.reverse_inj.1 hr)

theorem mem_decimal {n : Int} {c : Char} (h : c ∈ (decimal n).toList) :
    c.isDigit = true ∨ c = '-' := by
  cases n with
  | ofNat k =>
    simp only [decimal, String.toList_ofList] at h
    exact .inl (Nat.isDigit_of_mem_toDigits (by decide) (by decide) h)
  | negSucc k =>
    simp only [decimal, String.toList_ofList, List.mem_cons] at h
    rcases h with rfl | h
    · exact .inr rfl
    · exact .inl (Nat.isDigit_of_mem_toDigits (by decide) (by decide) h)

theorem signed?_decimal {unsigned? : List Char → Option Nat}
    (h : ∀ n, unsigned? (Nat.toDigits 10 n) = some n) (n : Int) :
    signed? unsigned? (decimal n).toList = some n := by
  cases n with
  | ofNat k =>
    obtain ⟨c, cs, hcs, hc⟩ := toDigits_head_isDigit k
    have hk := h k
    simp only [decimal, String.toList_ofList]
    rw [hcs] at hk ⊢
    unfold signed?
    split
    · rename_i he
      simp only [List.cons.injEq] at he
      rw [he.1] at hc
      exact absurd hc (by decide)
    · rename_i he
      simp only [List.cons.injEq] at he
      rw [he.1] at hc
      exact absurd hc (by decide)
    · rw [hk]
      rfl
  | negSucc k =>
    simp only [decimal, String.toList_ofList, signed?]
    rw [h (k + 1)]
    rfl

theorem signed?_natLiteral (n : Int) : signed? natLiteral? (decimal n).toList = some n :=
  signed?_decimal natLiteral?_toDigits n

theorem natDecimal?_toDigits (n : Nat) : natDecimal? (Nat.toDigits 10 n) = some n := by
  unfold natDecimal?
  rw [if_neg (by simp [Nat.toDigits_ne_nil])]
  exact digits?_toDigits n

theorem decimal64?_decimal (n : Int64) : decimal64? (decimal n.toInt).toList = some n := by
  have h0 := n.le_toInt
  have h1 := n.toInt_lt
  have hfit : fitting? 64 n.toInt = some n.toInt := by
    rw [fitting?_eq_some_iff]
    exact ⟨rfl, h0, h1⟩
  simp [decimal64?, signed?_decimal natDecimal?_toDigits, hfit]

/-- A written number is read as a literal exactly when it fits in 32 bits. -/
theorem literal32?_decimal (n : Int) :
    literal32? (decimal n).toList =
      if -2 ^ 31 ≤ n ∧ n < 2 ^ 31 then some (Int32.ofInt n) else none := by
  simp only [literal32?, signed?_natLiteral, Option.bind_some, fitting?]
  have hb : wordBound 32 = 2 ^ 31 := rfl
  rw [hb]
  split
  · rfl
  · rfl

/-! ### The bytes of a decimal -/

theorem toList_loop (bs : ByteArray) (i : Nat) (r : List UInt8) :
    ByteArray.toList.loop bs i r = r.reverse ++ bs.data.toList.drop i := by
  fun_induction ByteArray.toList.loop bs i r with
  | case1 i r h ih =>
    have hlt : i < bs.data.toList.length := by simpa using h
    have hget : bs.get! i = bs.data.toList[i] := by
      cases bs
      simp only [ByteArray.get!]
      exact getElem!_pos _ i h
    rw [ih, List.drop_eq_getElem_cons hlt, hget]
    simp
  | case2 i r h =>
    have hle : bs.data.toList.length ≤ i := by simpa using h
    rw [List.drop_of_length_le hle, List.append_nil]

theorem textBytes_ofList (cs : List Char) :
    textBytes (String.ofList cs) = cs.flatMap String.utf8EncodeChar := by
  have h : (String.ofList cs).toUTF8 = cs.utf8Encode := String.toByteArray_ofList
  rw [textBytes, h, ByteArray.toList, toList_loop, List.utf8Encode, List.toList_data_toByteArray]
  rfl

theorem charBytes_eq (c : Char) : charBytes c = String.utf8EncodeChar c := by
  have h := textBytes_ofList [c]
  rwa [List.flatMap_singleton] at h

theorem textBytes_append (s t : String) : textBytes (s ++ t) = textBytes s ++ textBytes t := by
  rw [← String.ofList_toList (s := s ++ t), textBytes_ofList, String.toList_append,
    List.flatMap_append, ← textBytes_ofList, ← textBytes_ofList, String.ofList_toList,
    String.ofList_toList]

theorem isDigit_range {c : Char} (h : c.isDigit = true) : 48 ≤ c.toNat ∧ c.toNat ≤ 57 :=
  Char.isDigit_iff_toNat.1 h

theorem utf8EncodeChar_of_digit {c : Char} (h : c.isDigit = true ∨ c = '-') :
    ∃ b, String.utf8EncodeChar c = [b] ∧ b ≠ 0 := by
  have hall : ∀ n : Fin 58, 0 < n.val →
      String.utf8EncodeChar (Char.ofNat n) = [UInt8.ofNat n] ∧ UInt8.ofNat n ≠ 0 := by decide
  rcases h with h | h
  · have hd := isDigit_range h
    have hc := hall ⟨c.toNat, by omega⟩ (by simp only; omega)
    simp only [Char.ofNat_toNat] at hc
    exact ⟨_, hc⟩
  · subst h
    exact ⟨_, hall 45 (by decide)⟩

theorem flatMap_digits {cs : List Char} (h : ∀ c ∈ cs, c.isDigit = true ∨ c = '-') :
    (cs.flatMap String.utf8EncodeChar).length = cs.length
      ∧ ∀ b ∈ cs.flatMap String.utf8EncodeChar, b ≠ 0 := by
  induction cs with
  | nil => simp
  | cons c cs ih =>
    obtain ⟨h1, h2⟩ := ih fun d hd => h d (List.mem_cons_of_mem _ hd)
    obtain ⟨b, hb, hne⟩ := utf8EncodeChar_of_digit (h c List.mem_cons_self)
    rw [List.flatMap_cons, hb]
    refine ⟨by simp [h1], ?_⟩
    intro d hd
    rcases List.mem_append.1 hd with hd | hd
    · rw [List.mem_singleton.1 hd]
      exact hne
    · exact h2 d hd

theorem length_toDigits_word {n : Nat} (h : n ≤ 2 ^ 31) : (Nat.toDigits 10 n).length ≤ 10 :=
  (Nat.length_toDigits_le_iff (by decide) (by omega)).2 (by omega)

theorem textBytes_decimal_word (v : Int32) :
    (textBytes (decimal v.toInt)).length ≤ 11
      ∧ (textBytes (decimal v.toInt)).takeWhile (· != 0) = textBytes (decimal v.toInt) := by
  have hlow := v.le_toInt
  have hhigh := v.toInt_lt
  have hdigits : ∀ k, ∀ c ∈ Nat.toDigits 10 k, c.isDigit = true ∨ c = '-' :=
    fun k c hc => .inl (Nat.isDigit_of_mem_toDigits (by decide) (by decide) hc)
  have htake : ∀ bs : List UInt8, (∀ b ∈ bs, b ≠ 0) → bs.takeWhile (· != 0) = bs := by
    intro bs hb
    rw [List.takeWhile_eq_self_iff]
    intro b hbs
    simpa using hb b hbs
  cases hv : v.toInt with
  | ofNat k =>
    obtain ⟨h1, h2⟩ := flatMap_digits (hdigits k)
    have hk : k ≤ 2 ^ 31 := by rw [Int.ofNat_eq_natCast] at hv; omega
    rw [decimal, textBytes_ofList]
    refine ⟨?_, htake _ h2⟩
    have := length_toDigits_word hk
    omega
  | negSucc k =>
    have hcs : ∀ c ∈ '-' :: Nat.toDigits 10 (k + 1), c.isDigit = true ∨ c = '-' := by
      intro c hc
      rcases List.mem_cons.1 hc with hc | hc
      · exact .inr hc
      · exact hdigits _ c hc
    obtain ⟨h1, h2⟩ := flatMap_digits hcs
    have hk : k + 1 ≤ 2 ^ 31 := by rw [Int.negSucc_eq] at hv; omega
    rw [decimal, textBytes_ofList]
    refine ⟨?_, htake _ h2⟩
    have := length_toDigits_word hk
    rw [h1, List.length_cons]
    omega

/-! ### Texts on one line -/

/-- The text fits on a line. -/
def OneLine (s : String) : Prop := '\n' ∉ s.toList

instance (s : String) : Decidable (OneLine s) := inferInstanceAs (Decidable ('\n' ∉ s.toList))

theorem oneLine_append {s t : String} : OneLine (s ++ t) ↔ OneLine s ∧ OneLine t := by
  simp [OneLine, String.toList_append]

theorem oneLine_decimal (n : Int) : OneLine (decimal n) := by
  have hdigits : ∀ k, '\n' ∉ Nat.toDigits 10 k := by
    intro k hk
    have := Nat.isDigit_of_mem_toDigits (by decide) (by decide) hk
    exact absurd this (by decide)
  cases n with
  | ofNat k => simpa [OneLine, decimal] using hdigits k
  | negSucc k => simpa [OneLine, decimal] using hdigits (k + 1)

theorem oneLine_join {ss : List String} (h : ∀ s ∈ ss, OneLine s) : OneLine (String.join ss) := by
  intro hm
  rw [String.toList_join] at hm
  obtain ⟨s, hs, hc⟩ := List.mem_flatMap.1 hm
  exact h s hs hc

theorem oneLine_intercalate {l : List String} (h : ∀ x ∈ l, OneLine x) :
    OneLine (", ".intercalate l) := by
  induction l with
  | nil => decide
  | cons x l ih =>
    have hl := ih fun y hy => h y (List.mem_cons_of_mem _ hy)
    cases l with
    | nil => simpa using h x List.mem_cons_self
    | cons y l =>
      rw [String.intercalate_cons_cons, oneLine_append, oneLine_append]
      exact ⟨⟨h x List.mem_cons_self, by decide⟩, hl⟩

end MoonBackend.Text
