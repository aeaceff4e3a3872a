import Mathlib
import MoonBackend.Proofs.Text.Numeral
import MoonBackend.Text.Words

/-!
# Trimmed texts

Trimming a text takes away the blanks at its ends and nothing else. A decimal has no blanks, neither
as characters nor as bytes, so it is read back from between any blanks.
-/

namespace MoonBackend.Text

/-! ### Characters -/

structure Trimmed (cs : List Char) : Prop where
  head : ∀ c ∈ cs.head?, isBlank c = false
  last : ∀ c ∈ cs.getLast?, isBlank c = false

theorem Trimmed.of_forall {cs : List Char} (h : ∀ c ∈ cs, isBlank c = false) : Trimmed cs :=
  ⟨fun c hc => h c (List.mem_of_head? hc), fun c hc => h c (List.mem_of_getLast? hc)⟩

theorem dropWhile_of_head {α : Type} {p : α → Bool} {l : List α} (h : ∀ a ∈ l.head?, p a = false) :
    l.dropWhile p = l := by
  cases l with
  | nil => rfl
  | cons a l => exact List.dropWhile_cons_of_neg (by simp [h a rfl])

theorem head_dropWhile (p : Char → Bool) (cs : List Char) :
    ∀ c ∈ (cs.dropWhile p).head?, p c = false := by
  intro c hc
  have h := List.head?_dropWhile_not p cs
  rw [Option.mem_def.1 hc] at h
  exact h

theorem trimBlanks_eq {cs : List Char} (h : Trimmed cs) : trimBlanks cs = cs := by
  have hlast : ∀ c ∈ cs.reverse.head?, isBlank c = false := by
    rw [List.head?_reverse]
    exact h.last
  rw [trimBlanks, dropWhile_of_head h.head, dropWhile_of_head hlast, List.reverse_reverse]

theorem trimmed_trimBlanks (cs : List Char) : Trimmed (trimBlanks cs) := by
  generalize hfront : cs.dropWhile isBlank = front
  have hhead : ∀ c ∈ front.head?, isBlank c = false := by
    rw [← hfront]
    exact head_dropWhile isBlank cs
  -- what is left is a beginning of `front`
  have hprefix : trimBlanks cs <+: front := by
    rw [trimBlanks, hfront, ← List.reverse_suffix, List.reverse_reverse]
    exact List.dropWhile_suffix _
  constructor
  · intro c hc
    obtain ⟨rest, hrest⟩ := hprefix
    refine hhead c ?_
    rw [← hrest, Option.mem_def, List.head?_append, Option.mem_def.1 hc]
    rfl
  · rw [trimBlanks, List.getLast?_reverse]
    exact head_dropWhile isBlank _

/-! ### Decimals -/

theorem range_of_mem_decimal {n : Int} {c : Char} (h : c ∈ (decimal n).toList) :
    45 ≤ c.toNat ∧ c.toNat ≤ 57 := by
  rcases mem_decimal h with hd | rfl
  · have := isDigit_range hd
    omega
  · decide

theorem trimmed_decimal (n : Int) : Trimmed (decimal n).toList := by
  have hall : ∀ n : Fin 58, 45 ≤ n.val → isBlank (Char.ofNat n) = false := by decide
  refine .of_forall fun c hc => ?_
  obtain ⟨h0, h1⟩ := range_of_mem_decimal hc
  have hb := hall ⟨c.toNat, by omega⟩ h0
  rwa [Char.ofNat_toNat] at hb

theorem decimal32?_decimal (v : Int32) : decimal32? (decimal v.toInt).toList = some v := by
  have hfit : fitting? 32 v.toInt = some v.toInt := by
    rw [fitting?_eq_some_iff]
    exact ⟨rfl, v.le_toInt, v.toInt_lt⟩
  simp [decimal32?, signed?_decimal natDecimal?_toDigits, hfit]

/-! ### Bytes -/

theorem toNat_ofNat_of_mem_decimal {n : Int} {c : Char} (h : c ∈ (decimal n).toList) :
    (UInt8.ofNat c.toNat).toNat = c.toNat := by
  have hr := range_of_mem_decimal h
  exact UInt8.toNat_ofNat_of_lt (show c.toNat < 256 by omega)

theorem textBytes_decimal (n : Int) :
    textBytes (decimal n) = (decimal n).toList.map fun c => UInt8.ofNat c.toNat := by
  have hall : ∀ n : Fin 58, String.utf8EncodeChar (Char.ofNat n) = [UInt8.ofNat n] := by decide
  have hchar : ∀ c ∈ (decimal n).toList, String.utf8EncodeChar c = [UInt8.ofNat c.toNat] := by
    intro c hc
    have hc' := hall ⟨c.toNat, by have := range_of_mem_decimal hc; omega⟩
    simpa only [Char.ofNat_toNat] using hc'
  rw [← String.ofList_toList (s := decimal n), textBytes_ofList, String.toList_ofList,
    List.flatMap_congr hchar, List.map_eq_flatMap]

theorem map_textBytes_decimal (n : Int) :
    ((textBytes (decimal n)).map fun b => Char.ofNat b.toNat) = (decimal n).toList := by
  rw [textBytes_decimal, List.map_map]
  refine (List.map_congr_left fun c hc => ?_).trans (List.map_id _)
  rw [Function.comp_apply, toNat_ofNat_of_mem_decimal hc, Char.ofNat_toNat]
  rfl

theorem range_of_mem_textBytes {n : Int} {b : UInt8} (h : b ∈ textBytes (decimal n)) :
    45 ≤ b.toNat ∧ b.toNat ≤ 57 := by
  rw [textBytes_decimal] at h
  obtain ⟨c, hc, rfl⟩ := List.mem_map.1 h
  rw [toNat_ofNat_of_mem_decimal hc]
  exact range_of_mem_decimal hc

theorem range_of_blank : ∀ p ∈ blanks.map charBytes, p ≠ []
    ∧ (∀ b ∈ p.head?, b.toNat < 45 ∨ 57 < b.toNat)
    ∧ ∀ b ∈ p.reverse.head?, b.toNat < 45 ∨ 57 < b.toNat := by
  rw [show charBytes = String.utf8EncodeChar from funext charBytes_eq]
  decide +kernel

theorem dropPieces_eq {pieces : List (List UInt8)} {bs : List UInt8} {fuel : Nat}
    (h : ∀ p ∈ pieces, p.isPrefixOf bs = false) : dropPieces pieces fuel bs = bs := by
  cases fuel with
  | zero => rfl
  | succ fuel =>
    have hnone : (pieces.find? fun p => p.isPrefixOf bs) = none := by
      rw [List.find?_eq_none]
      intro p hp
      rw [h p hp]
      exact Bool.false_ne_true
    rw [dropPieces, hnone]

theorem isPrefixOf_eq_false {p bs : List UInt8} (hp : p ≠ [])
    (hb : ∀ b ∈ p.head?, b.toNat < 45 ∨ 57 < b.toNat)
    (h : ∀ b ∈ bs, 45 ≤ b.toNat ∧ b.toNat ≤ 57) : p.isPrefixOf bs = false := by
  by_contra hpre
  obtain ⟨rest, hrest⟩ := List.isPrefixOf_iff_prefix.1 (eq_true_of_ne_false hpre)
  cases p with
  | nil => exact hp rfl
  | cons b p =>
    have h1 := hb b rfl
    have h2 := h b (by rw [← hrest]; exact List.mem_cons_self)
    omega

theorem trimBytes_decimal (n : Int) : trimBytes (textBytes (decimal n)) = textBytes (decimal n) := by
  have hmem : ∀ b ∈ textBytes (decimal n), 45 ≤ b.toNat ∧ b.toNat ≤ 57 :=
    fun b hb => range_of_mem_textBytes hb
  have hfront : ∀ p ∈ blanks.map charBytes, p.isPrefixOf (textBytes (decimal n)) = false :=
    fun p hp => isPrefixOf_eq_false (range_of_blank p hp).1 (range_of_blank p hp).2.1 hmem
  have hback : ∀ p ∈ (blanks.map charBytes).map List.reverse,
      p.isPrefixOf (textBytes (decimal n)).reverse = false := by
    intro q hq
    obtain ⟨p, hp, rfl⟩ := List.mem_map.1 hq
    exact isPrefixOf_eq_false (List.reverse_ne_nil_iff.2 (range_of_blank p hp).1)
      (range_of_blank p hp).2.2 fun b hb => hmem b (List.mem_reverse.1 hb)
  simp only [trimBytes]
  rw [dropPieces_eq hfront, dropPieces_eq hback, List.reverse_reverse]

end MoonBackend.Text
