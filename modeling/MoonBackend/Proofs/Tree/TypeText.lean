import MoonBackend.Proofs.Symbols.Built
import MoonBackend.Proofs.Text.Trimming
import MoonBackend.Tree.Ty

/-!
# Types and their texts

A type is legible if its text determines it: the name of a class must not be taken for another base,
for a dimension or for surrounding blanks. The reader gives every legible type back from its text,
and whatever the reader accepts it answers with a legible type.
-/

namespace MoonBackend

open Text

/-! ### Names -/

namespace Base

/-- The words that stand for a base which is no class. -/
def reservedWords : List String := ["void", "integer", "int", "float", "boolean", "bool"]

theorem parseBase_eq_object {name : String} (h0 : name ≠ "") (h : name ∉ reservedWords) :
    Ty.parseBase name = .ok (.object name) := by
  simp only [reservedWords, List.mem_cons, List.not_mem_nil, or_false, not_or] at h
  obtain ⟨h1, h2, h3, h4, h5, h6⟩ := h
  simp [Ty.parseBase, h0, h1, h2, h3, h4, h5, h6]

theorem object_of_parseBase {name className : String}
    (h : Ty.parseBase name = .ok (.object className)) :
    className = name ∧ name ≠ "" ∧ name ∉ reservedWords := by
  unfold Ty.parseBase at h
  split at h
  · cases h
  · rename_i h0
    repeat' split at h
    all_goals cases h
    simp_all [reservedWords]

/-- The text of a base stands for it, also in front of dimensions. -/
structure Legible (base : Base) : Prop where
  nonempty : base.text ≠ ""
  noBracket : '[' ∉ base.text.toList
  head : ∀ c ∈ base.text.toList.head?, isBlank c = false
  parse : Ty.parseBase base.text = .ok base

theorem legible_object {name : String} (h0 : name ≠ "") (hb : '[' ∉ name.toList)
    (hc : ∀ c ∈ name.toList.head?, isBlank c = false) (hn : name ∉ reservedWords) :
    Legible (.object name) :=
  ⟨h0, hb, hc, parseBase_eq_object h0 hn⟩

theorem trimmed_of_not_object {base : Base} (h : ¬ ∃ name, base = .object name) :
    Trimmed base.text.toList := by
  refine .of_forall ?_
  cases base with
  | object name => exact absurd ⟨name, rfl⟩ h
  | _ => simp [text, isBlank]

theorem legible_of_not_object {base : Base} (h : ¬ ∃ name, base = .object name) :
    base.Legible := by
  have ht := trimmed_of_not_object h
  cases base with
  | object name => exact absurd ⟨name, rfl⟩ h
  | _ => exact ⟨by decide, by decide, ht.head, rfl⟩

end Base

namespace Ty

/-- The text of the type determines it. Behind a dimension no blank is lost. -/
structure Legible (t : Ty) : Prop where
  base : t.base.Legible
  last : t.dims = [] → ∀ c ∈ t.base.text.toList.getLast?, isBlank c = false

/-! ### Dimensions -/

theorem toList_dimText (d : Int64) :
    (dimText d).toList = '[' :: ((decimal d.toInt).toList ++ [']']) := by
  simp [dimText]

theorem toList_text (t : Ty) :
    t.text.toList = t.base.text.toList ++ t.dims.flatMap fun d => (dimText d).toList := by
  rw [text, String.toList_append, String.toList_join, List.flatMap_map]

theorem parseDims_inside (whole : String) (done : List Int64) (ds inside rest : List Char)
    (h : ']' ∉ ds) :
    parseDims whole (some inside) done (ds ++ rest)
      = parseDims whole (some (ds.reverse ++ inside)) done rest := by
  induction ds generalizing inside with
  | nil => rfl
  | cons d ds ih =>
    rw [List.mem_cons, not_or] at h
    have hd : (d == ']') = false := by simpa using Ne.symm h.1
    rw [List.cons_append, parseDims]
    simp only [hd, Bool.false_eq_true, if_false]
    rw [ih _ h.2, List.reverse_cons, List.append_assoc]
    rfl

theorem parseDims_dimText (whole : String) (done : List Int64) (d : Int64) (rest : List Char) :
    parseDims whole none done ((dimText d).toList ++ rest)
      = parseDims whole none (d :: done) rest := by
  have hclose : ']' ∉ (decimal d.toInt).toList := by
    intro h
    rcases mem_decimal h with h | h
    · exact absurd h (by decide)
    · exact absurd h (by decide)
  rw [toList_dimText, List.cons_append, List.append_assoc, parseDims]
  simp only [beq_self_eq_true, if_true]
  rw [parseDims_inside _ _ _ _ _ hclose, List.append_nil, List.singleton_append, parseDims]
  simp only [beq_self_eq_true, if_true, List.reverse_reverse]
  rw [trimBlanks_eq (trimmed_decimal _), decimal64?_decimal]

theorem parseDims_flatMap (whole : String) (done ds : List Int64) :
    parseDims whole none done (ds.flatMap fun d => (dimText d).toList)
      = .ok (done.reverse ++ ds) := by
  induction ds generalizing done with
  | nil => simp [parseDims]
  | cons d ds ih =>
    rw [List.flatMap_cons, parseDims_dimText, ih, List.reverse_cons, List.append_assoc]
    rfl

theorem length_of_parseDims {whole : String} {inside : Option (List Char)} {done ds : List Int64}
    {cs : List Char} (h : parseDims whole inside done cs = .ok ds) :
    done.length ≤ ds.length ∧ (inside.isSome ∨ cs ≠ [] → done.length < ds.length) := by
  fun_induction parseDims whole inside done cs with
  | case1 done =>
    cases h
    simp
  | case2 => cases h
  | case3 done c cs hc ih =>
    have := ih h
    simp_all
  | case4 => cases h
  | case5 done c cs inside hc d hd ih =>
    have := (ih h).1
    rw [List.length_cons] at this
    exact ⟨by omega, fun _ => by omega⟩
  | case6 => cases h
  | case7 done c cs inside hc ih =>
    have := ih h
    simp_all

/-! ### Whole types -/

theorem trimmed_text {t : Ty} (h : t.Legible) : Trimmed t.text.toList := by
  rw [toList_text]
  constructor
  · intro c hc
    refine h.base.head c ?_
    cases hname : t.base.text.toList with
    | nil => exact absurd (String.toList_eq_nil_iff.1 hname) h.base.nonempty
    | cons d ds =>
      rw [hname] at hc
      exact hc
  · rcases List.eq_nil_or_concat t.dims with hd | ⟨ds, d, hd⟩
    · rw [hd, List.flatMap_nil, List.append_nil]
      exact h.last hd
    · intro c hc
      rw [hd, List.concat_eq_append, List.flatMap_append, List.flatMap_singleton, toList_dimText,
        ← List.cons_append, ← List.append_assoc, ← List.append_assoc,
        List.getLast?_concat] at hc
      obtain rfl : ']' = c := by simpa using hc
      decide

/-- A legible type is read back from its text. -/
theorem parse_text {t : Ty} (h : t.Legible) : parse t.text = .ok t := by
  have hname : ∀ c ∈ t.base.text.toList, (c != '[') = true := by
    intro c hc
    have hne : c ≠ '[' := fun he => h.base.noBracket (he ▸ hc)
    simpa using hne
  have hdims : ∀ ds : List Int64, (ds.flatMap fun d => (dimText d).toList).takeWhile (· != '[') = []
      ∧ (ds.flatMap fun d => (dimText d).toList).dropWhile (· != '[')
        = ds.flatMap fun d => (dimText d).toList := by
    intro ds
    cases ds with
    | nil => exact ⟨rfl, rfl⟩
    | cons d ds => simp [toList_dimText]
  unfold parse
  simp only [trimBlanks_eq (trimmed_text h)]
  rw [toList_text, List.dropWhile_append_of_pos hname, List.takeWhile_append_of_pos hname,
    (hdims t.dims).1, (hdims t.dims).2, parseDims_flatMap, List.append_nil, String.ofList_toList]
  simp only [bind, Except.bind, h.base.parse]
  rfl

/-- Whatever is read is legible, whatever blanks and spellings it was read from. -/
theorem legible_of_parse {s : String} {t : Ty} (h : parse s = .ok t) : t.Legible := by
  have htrim := trimmed_trimBlanks s.toList
  unfold parse at h
  dsimp only at h
  generalize trimBlanks s.toList = cs at h htrim
  obtain ⟨dims, hdims, h⟩ := except_bind_eq_ok.1 h
  obtain ⟨base, hbase, h⟩ := except_bind_eq_ok.1 h
  cases h
  by_cases hobject : ∃ name, base = .object name
  · obtain ⟨name, rfl⟩ := hobject
    obtain ⟨rfl, h0, hn⟩ := Base.object_of_parseBase hbase
    have hcs := List.takeWhile_append_dropWhile (p := (· != '[')) (l := cs)
    refine ⟨Base.legible_object h0 ?_ ?_ hn, ?_⟩
    · rw [String.toList_ofList]
      intro hmem
      simpa using List.mem_takeWhile_imp hmem
    · rw [String.toList_ofList]
      intro c hc
      refine htrim.head c ?_
      rw [← hcs, Option.mem_def, List.head?_append, Option.mem_def.1 hc]
      rfl
    · rw [Base.text, String.toList_ofList]
      intro hnil c hc
      -- without a dimension the name is the whole text
      have hrest : cs.dropWhile (· != '[') = [] := by
        by_contra hne
        have hlt := (length_of_parseDims hdims).2 (.inr hne)
        rw [show dims = [] from hnil] at hlt
        exact absurd hlt (Nat.lt_irrefl _)
      rw [hrest, List.append_nil] at hcs
      exact htrim.last c (by rwa [← hcs])
  · exact ⟨Base.legible_of_not_object hobject, fun _ => (Base.trimmed_of_not_object hobject).last⟩

theorem parse_text_iff {t : Ty} : parse t.text = .ok t ↔ t.Legible :=
  ⟨legible_of_parse, parse_text⟩

/-- A type of a primitive base and a type of a class with a proper name are read back from their
texts, and so is every type that was read from any text. -/
theorem parse_text_roundTrip :
    (∀ (base : Base) (dims : List Int64),
      (∀ name, base = .object name → name ≠ "" ∧ '[' ∉ name.toList ∧ Trimmed name.toList
        ∧ name ∉ Base.reservedWords) →
      parse (text ⟨base, dims⟩) = .ok ⟨base, dims⟩)
    ∧ ∀ (s : String) (t : Ty), parse s = .ok t → parse t.text = .ok t := by
  refine ⟨fun base dims h => parse_text_iff.2 ?_,
    fun s t h => parse_text_iff.2 (legible_of_parse h)⟩
  by_cases hobject : ∃ name, base = .object name
  · obtain ⟨name, rfl⟩ := hobject
    obtain ⟨h0, hb, ht, hn⟩ := h name rfl
    exact ⟨Base.legible_object h0 hb ht.head hn, fun _ => ht.last⟩
  · exact ⟨Base.legible_of_not_object hobject, fun _ => (Base.trimmed_of_not_object hobject).last⟩

/-- A class with a blank inside its name, and a list of integers with a dimension that is written
loosely. -/
theorem parse_text_roundTrip_shelf :
    (("Top Shelf" ≠ "" ∧ '[' ∉ "Top Shelf".toList ∧ Trimmed "Top Shelf".toList
        ∧ "Top Shelf" ∉ Base.reservedWords)
      ∧ parse (text ⟨.object "Top Shelf", [3, -2]⟩) = .ok ⟨.object "Top Shelf", [3, -2]⟩)
    ∧ parse " int[ +3 ]" = .ok ⟨.integer, [3]⟩
      ∧ parse (text ⟨.integer, [3]⟩) = .ok ⟨.integer, [3]⟩ := by
  have hname : "Top Shelf" ≠ "" ∧ '[' ∉ "Top Shelf".toList ∧ Trimmed "Top Shelf".toList
      ∧ "Top Shelf" ∉ Base.reservedWords :=
    ⟨by decide, by decide, ⟨by simp [isBlank], by simp [isBlank]⟩, by decide⟩
  have hread : parse " int[ +3 ]" = .ok ⟨.integer, [3]⟩ := rfl
  refine ⟨⟨hname, parse_text_roundTrip.1 _ _ ?_⟩, hread, parse_text_roundTrip.2 _ _ hread⟩
  rintro name ⟨⟩
  exact hname

end Ty

end MoonBackend
