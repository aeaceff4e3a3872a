import Mathlib.Data.List.Nodup
import MoonBackend.Proofs.Compiled
import MoonBackend.Proofs.Emit.Labels

/-!
# The labels of functions

A function is entered at its tag and left at its exit label. Both are made of the names of the class
and the function; the second and later functions of one stem get a number, and an exit label ends in
the count of labels as well. As long as names end in letters the parts can be read off again, so
different functions have different tags and different exit labels.
-/

namespace MoonBackend.Emit

open Text

/-- The last character is neither a digit nor an underscore. -/
def endsInLetter (name : String) : Bool :=
  name.toList.getLast?.any fun c => !c.isDigit && c != '_'

theorem endsInLetter_iff {name : String} : endsInLetter name = true ↔
    ∃ cs c, name.toList = cs ++ [c] ∧ c.isDigit = false ∧ c ≠ '_' := by
  unfold endsInLetter
  rw [Option.any_eq_true]
  constructor
  · rintro ⟨c, hc, hp⟩
    obtain ⟨cs, hcs⟩ := List.getLast?_eq_some_iff.1 hc
    exact ⟨cs, c, hcs, by simpa using hp⟩
  · rintro ⟨cs, c, hcs, hp⟩
    exact ⟨c, List.getLast?_eq_some_iff.2 ⟨cs, hcs⟩, by simpa using hp⟩

/-! ### The parts of a label -/

def tagNames (f : Signature) : String :=
  if f.isMember then f.className ++ "_" ++ f.name else f.name

theorem tagStem_eq (f : Signature) : tagStem f = "fn_" ++ tagNames f := by
  unfold tagStem tagNames
  split
  · rw [String.append_assoc, String.append_assoc, String.append_assoc]
  · rfl

theorem endsInLetter_tagNames {f : Signature} (h : endsInLetter f.name = true) :
    endsInLetter (tagNames f) = true := by
  obtain ⟨cs, c, hcs, hc⟩ := endsInLetter_iff.1 h
  unfold tagNames
  split
  · refine endsInLetter_iff.2 ⟨(f.className ++ "_").toList ++ cs, c, ?_, hc⟩
    rw [String.toList_append, hcs, List.append_assoc]
  · exact h

/-- What tells the functions of one stem apart: nothing for the first, a number for the others. -/
def ordinal (n : Nat) : List Char := if n = 1 then [] else '_' :: Nat.toDigits 10 n

def tagOf (f : Signature) (n : Nat) : String :=
  if n = 1 then tagStem f else tagStem f ++ "_" ++ decimal n

theorem toList_tagOf (f : Signature) (n : Nat) :
    (tagOf f n).toList = "fn_".toList ++ ((tagNames f).toList ++ ordinal n) := by
  unfold tagOf ordinal
  split
  · simp [tagStem_eq]
  · have hd : (decimal (n : Int)).toList = Nat.toDigits 10 n := String.toList_ofList
    simp only [tagStem_eq, String.toList_append, hd, List.append_assoc]
    rfl

theorem append_digits_inj {s t ds es : List Char} {c d : Char} (hc : c.isDigit = false)
    (hd : d.isDigit = false) (hds : ∀ x ∈ ds, x.isDigit = true) (hes : ∀ x ∈ es, x.isDigit = true)
    (h : s ++ c :: ds = t ++ d :: es) : s = t ∧ c = d ∧ ds = es := by
  rcases List.append_eq_append_iff.1 h with ⟨u, rfl, hu⟩ | ⟨u, rfl, hu⟩
  · cases u with
    | nil =>
      rw [List.nil_append] at hu
      exact ⟨(List.append_nil s).symm, List.cons.inj hu⟩
    | cons x u =>
      have hmem : d ∈ ds := by
        rw [(List.cons.inj hu).2]
        simp
      rw [hds d hmem] at hd
      cases hd
  · cases u with
    | nil =>
      rw [List.nil_append] at hu
      obtain ⟨h1, h2⟩ := List.cons.inj hu
      exact ⟨List.append_nil t, h1.symm, h2.symm⟩
    | cons x u =>
      have hmem : c ∈ es := by
        rw [(List.cons.inj hu).2]
        simp
      rw [hes c hmem] at hc
      cases hc

theorem isDigit_of_mem_toDigits {n : Nat} : ∀ c ∈ Nat.toDigits 10 n, c.isDigit = true := fun _ hc =>
  Nat.isDigit_of_mem_toDigits (by decide) (by decide) hc

/-- The digits at the end of a label: those of the ordinal, if there is one, and those after it. -/
theorem split_ordinal {s : String} (hs : endsInLetter s = true) (m : Nat) {ds : List Char}
    (hds : ∀ x ∈ ds, x.isDigit = true) :
    ∃ start x digits, s.toList ++ ordinal m ++ ds = start ++ x :: digits ∧ x.isDigit = false
      ∧ (∀ y ∈ digits, y.isDigit = true)
      ∧ (m = 1 ∧ x ≠ '_' ∧ s.toList = start ++ [x] ∧ digits = ds
        ∨ m ≠ 1 ∧ x = '_' ∧ s.toList = start ∧ digits = Nat.toDigits 10 m ++ ds) := by
  obtain ⟨cs, c, hcs, hc, hc'⟩ := endsInLetter_iff.1 hs
  by_cases hm : m = 1
  · exact ⟨cs, c, ds, by simp [ordinal, hm, hcs], hc, hds, .inl ⟨hm, hc', hcs, rfl⟩⟩
  · refine ⟨s.toList, '_', Nat.toDigits 10 m ++ ds, by simp [ordinal, hm], by decide, ?_,
      .inr ⟨hm, rfl, rfl, rfl⟩⟩
    intro y hy
    exact (List.mem_append.1 hy).elim (isDigit_of_mem_toDigits y) (hds y)

/-- Names that end in letters can be told from an ordinal and digits after them. -/
theorem names_ordinal_inj {s t : String} (hs : endsInLetter s = true) (ht : endsInLetter t = true)
    {m n : Nat} {ds es : List Char} (hds : ∀ x ∈ ds, x.isDigit = true)
    (hes : ∀ x ∈ es, x.isDigit = true)
    (h : s.toList ++ ordinal m ++ ds = t.toList ++ ordinal n ++ es) :
    s = t ∧ (m = 1 ∧ n = 1 ∧ ds = es
      ∨ m ≠ 1 ∧ n ≠ 1 ∧ Nat.toDigits 10 m ++ ds = Nat.toDigits 10 n ++ es) := by
  obtain ⟨start, x, digits, h1, hx, hdigits, hcase⟩ := split_ordinal hs m hds
  obtain ⟨start', y, digits', h2, hy, hdigits', hcase'⟩ := split_ordinal ht n hes
  rw [h1, h2] at h
  obtain ⟨rfl, rfl, rfl⟩ := append_digits_inj hx hy hdigits hdigits' h
  rcases hcase with ⟨hm, hx', hst, hd⟩ | ⟨hm, rfl, hst, hd⟩
  · rcases hcase' with ⟨hn, -, hst', hd'⟩ | ⟨-, hy', -⟩
    · exact ⟨String.toList_inj.1 (hst.trans hst'.symm), .inl ⟨hm, hn, hd.symm.trans hd'⟩⟩
    · exact absurd hy' hx'
  · rcases hcase' with ⟨-, hy', -⟩ | ⟨hn, -, hst', hd'⟩
    · exact absurd rfl hy'
    · exact ⟨String.toList_inj.1 (hst.trans hst'.symm), .inr ⟨hm, hn, hd.symm.trans hd'⟩⟩

theorem toDigits_append_ne {m n i j : Nat} (hm : m < n) (hi : i ≤ j) :
    Nat.toDigits 10 m ++ Nat.toDigits 10 i ≠ Nat.toDigits 10 n ++ Nat.toDigits 10 j := by
  intro h
  have hlen : ∀ {a b : Nat}, a ≤ b → (Nat.toDigits 10 a).length ≤ (Nat.toDigits 10 b).length := by
    intro a b hab
    have hpos : 0 < (Nat.toDigits 10 b).length := List.length_pos_iff.2 Nat.toDigits_ne_nil
    rw [Nat.length_toDigits_le_iff (by decide) hpos]
    exact Nat.lt_of_le_of_lt hab ((Nat.length_toDigits_le_iff (by decide) hpos).1 (Nat.le_refl _))
  have h1 := hlen (Nat.le_of_lt hm)
  have h2 := hlen hi
  have hl := congrArg List.length h
  rw [List.length_append, List.length_append] at hl
  have := toDigits_inj (List.append_inj_left h (by omega))
  omega

theorem tagOf_inj {f g : Signature} (hf : endsInLetter f.name = true)
    (hg : endsInLetter g.name = true) {m n : Nat} (h : tagOf f m = tagOf g n) :
    tagStem f = tagStem g ∧ m = n := by
  have hl := congrArg String.toList h
  rw [toList_tagOf, toList_tagOf] at hl
  have hnil : ∀ x ∈ ([] : List Char), x.isDigit = true := fun x hx => by cases hx
  obtain ⟨h1, h2⟩ := names_ordinal_inj (endsInLetter_tagNames hf)
    (endsInLetter_tagNames hg) hnil hnil (by simpa using List.append_cancel_left hl)
  refine ⟨by rw [tagStem_eq, tagStem_eq, h1], ?_⟩
  rcases h2 with ⟨hm, hn, -⟩ | ⟨-, -, hd⟩
  · rw [hm, hn]
  · exact toDigits_inj (by simpa using hd)

/-! ### The tags of a program -/

def occurrence (fs : List Signature) (i : Nat) (f : Signature) : Nat :=
  ((fs.take i).map tagStem).count (tagStem f) + 1

theorem tagsAfter_getElem? (seen : List String) (fs : List Signature) (i : Nat) :
    (tagsAfter seen fs)[i]?
      = fs[i]?.map fun f => tagOf f (seen.count (tagStem f) + occurrence fs i f) := by
  induction fs generalizing seen i with
  | nil => rfl
  | cons f fs ih =>
    cases i with
    | zero => simp [tagsAfter, occurrence, tagOf]
    | succ i =>
      rw [tagsAfter, List.getElem?_cons_succ, ih, List.getElem?_cons_succ]
      congr 1
      funext g
      congr 1
      simp only [occurrence, List.take_succ_cons, List.map_cons, List.count_cons]
      split <;> omega

theorem tags_getElem? (p : Program) (i : Nat) :
    (tags p)[i]? = (p.functions[i]?).map fun f =>
      tagOf f.toSignature (occurrence (p.functions.map Function.toSignature) i f.toSignature) := by
  rw [tags, tagsAfter_getElem?, List.getElem?_map, Option.map_map]
  congr 1
  funext f
  simp

theorem occurrence_lt {fs : List Signature} {i j : Nat} {f g : Signature} (hf : fs[i]? = some f)
    (h : tagStem f = tagStem g) (hij : i < j) : occurrence fs i f < occurrence fs j g := by
  have htake : fs.take j = fs.take i ++ f :: (fs.drop (i + 1)).take (j - (i + 1)) := by
    obtain ⟨hi, hget⟩ := List.getElem?_eq_some_iff.1 hf
    have h1 : fs.take j = fs.take i ++ (fs.drop i).take (j - i) := by
      rw [← List.take_add]
      congr 1
      omega
    rw [h1, List.drop_eq_getElem_cons hi, hget,
      show j - i = (j - (i + 1)) + 1 by omega, List.take_succ_cons]
  unfold occurrence
  rw [htake, List.map_append, List.map_cons, List.count_append, List.count_cons, h]
  simp

/-- The names of all functions end in letters. -/
def LettersLast (fs : List MoonBackend.Function) : Prop := ∀ f ∈ fs, endsInLetter f.name = true

theorem tags_nodup {p : Program} (h : LettersLast p.functions) : (tags p).Nodup := by
  refine List.pairwise_iff_getElem.2 fun i j hi hj hij he => ?_
  have hget : ∀ (k : Nat) (hk : k < (tags p).length), ∃ f, p.functions[k]? = some f
      ∧ (tags p)[k] = tagOf f.toSignature
        (occurrence (p.functions.map Function.toSignature) k f.toSignature) := by
    intro k hk
    have hk' := tags_getElem? p k
    rw [List.getElem?_eq_getElem hk] at hk'
    obtain ⟨f, hf, hft⟩ := Option.map_eq_some_iff.1 hk'.symm
    exact ⟨f, hf, hft.symm⟩
  obtain ⟨f, hf, hft⟩ := hget i hi
  obtain ⟨g, hg, hgt⟩ := hget j hj
  rw [hft, hgt] at he
  obtain ⟨hst, hocc⟩ := tagOf_inj (h f (List.mem_of_getElem? hf)) (h g (List.mem_of_getElem? hg)) he
  have hhead : (p.functions.map Function.toSignature)[i]? = some f.toSignature := by
    rw [List.getElem?_map, hf]
    rfl
  have hlt := occurrence_lt hhead hst hij
  omega

/-! ### Exit labels -/

def exitAt (tags : List String) (i n : Nat) : String :=
  "end_" ++ untagged (tags.getD i "") ++ decimal (n : Int)

theorem toList_exitAt {p : Program} {i : Nat} {f : MoonBackend.Function} (hf : p.functions[i]? = some f) (n : Nat) :
    (exitAt (tags p) i n).toList = "end_".toList ++ ((tagNames f.toSignature).toList
      ++ ordinal (occurrence (p.functions.map Function.toSignature) i f.toSignature)
      ++ Nat.toDigits 10 n) := by
  have htag : (tags p).getD i "" = tagOf f.toSignature
      (occurrence (p.functions.map Function.toSignature) i f.toSignature) := by
    rw [List.getD_eq_getElem?_getD, tags_getElem?, hf]
    rfl
  have hd : (decimal (n : Int)).toList = Nat.toDigits 10 n := String.toList_ofList
  have hun : ∀ m, (untagged (tagOf f.toSignature m)).toList
      = (tagNames f.toSignature).toList ++ ordinal m := by
    intro m
    rw [untagged, String.toList_ofList, toList_tagOf]
    rfl
  rw [exitAt, htag, String.toList_append, String.toList_append, hd, hun, List.append_assoc]

theorem exitAt_ne {p : Program} (h : LettersLast p.functions) {i j m n : Nat} {f g : MoonBackend.Function}
    (hf : p.functions[i]? = some f) (hg : p.functions[j]? = some g) (hmn : m < n)
    (hij : tagStem f.toSignature = tagStem g.toSignature → i < j) :
    exitAt (tags p) i m ≠ exitAt (tags p) j n := by
  intro he
  have hl := congrArg String.toList he
  rw [toList_exitAt hf, toList_exitAt hg] at hl
  obtain ⟨hnames, hcase⟩ := names_ordinal_inj
    (endsInLetter_tagNames (h f (List.mem_of_getElem? hf)))
    (endsInLetter_tagNames (h g (List.mem_of_getElem? hg))) isDigit_of_mem_toDigits
    isDigit_of_mem_toDigits (List.append_cancel_left hl)
  rcases hcase with ⟨-, -, hd⟩ | ⟨-, -, hd⟩
  · have := toDigits_inj hd
    omega
  · have hst : tagStem f.toSignature = tagStem g.toSignature := by
      rw [tagStem_eq, tagStem_eq, hnames]
    have hhead : (p.functions.map Function.toSignature)[i]? = some f.toSignature := by
      rw [List.getElem?_map, hf]
      rfl
    have hlt := occurrence_lt hhead hst (hij hst)
    exact toDigits_append_ne hlt (Nat.le_of_lt hmn) hd

/-! ### The labels of a program -/

/-- The entry function has no tag. -/
def tagged (isEntry : Bool) (tag : String) : List String := if isEntry then [] else [tag]

theorem numbers_function {c : Context} (tag : String) (f : MoonBackend.Function) (s : Counts) :
    Triple (fun _ => True) c s (function tag f) fun code s' => ∃ l, Fresh s.labels s'.labels l
      ∧ ∀ x, (Code.labelNames code).count x
        = (tagged (f.isFree c.config.emit.entryFunction) tag ++ l ++ [c.exit]).count x := by
  have hstart : ∀ s, Triple (fun _ => True) c s (functionStart tag
      (f.isFree c.config.emit.entryFunction) ⟨c.config.registers.stackPointer⟩
      ⟨c.config.registers.link⟩) fun code s' => Fresh s.labels s'.labels []
        ∧ Code.labelNames code = tagged (f.isFree c.config.emit.entryFunction) tag := by
    intro s
    unfold functionStart tagged
    refine Triple.ite (fun he => ?_) fun he => ?_
    · refine Triple.look_lift (eval_frameSize c s) (fun _ _ => trivial) fun size _ => ?_
      refine Triple.of_eval (eval_comment _ c s) ⟨Fresh.nil _, ?_⟩
      simp [he]
    · refine (numbers_ownSlot _ s).bind fun off s₁ h₁ => Triple.pure ⟨h₁, ?_⟩
      simp [he]
  have hfinish : Numbers Code.labelNames c (functionFinish (f.isFree c.config.emit.entryFunction)
      f.returns ⟨c.config.registers.stackPointer⟩ ⟨c.config.registers.link⟩) := by
    refine Numbers.ite (Numbers.pure rfl) fun s => ?_
    have hresult : Numbers Code.labelNames c
        (functionResult f.returns ⟨c.config.registers.stackPointer⟩) := by
      refine Numbers.ite (fun s => ?_) (Numbers.pure rfl)
      refine (numbers_ownSlot _ s).bind fun off s₁ h₁ => Triple.look (eval_resultRegister c s₁) ?_
      exact Triple.pure (h₁.of_count (by simp [unlabeled]))
    refine (hresult s).bind fun result s₁ h₁ => (numbers_ownSlot _ s₁).bind fun off s₂ h₂ => ?_
    exact Triple.pure ((h₁.append h₂).of_count (by simp [unlabeled]))
  rw [function_eq]
  refine Triple.look (eval_read c s) <| Triple.look (eval_stackPointer c s) <|
    Triple.look (eval_link c s) <| Triple.look (eval_comment _ c s) ?_
  refine (hstart s).bind fun start s₁ ⟨h₁, hs⟩ => (numbers_enterBlock s₁).bind fun _ s₂ h₂ => ?_
  refine (numbers_stmts [] 0 f.body s₂).bind fun body s₃ h₃ => ?_
  refine (hfinish s₃).bind fun finish s₄ h₄ => ?_
  have hreport : Numbers unlabeled c (reportFunction c.scope tag) := fun s =>
    Triple.look_lift (eval_frameSize c s) (fun _ _ => trivial) fun size _ => Fresh.nil _
  refine (hreport s₄).bind fun _ s₅ h₅ => Triple.pure ?_
  refine ⟨_, (((h₁.append h₂).append h₃).append h₄).append h₅, fun x => ?_⟩
  simp [hs, unlabeled, Code.mark, List.count_cons]

/-- The labels of the code of functions: the tags, the labels of the bodies, and the exit labels with
the numbers that they were given, in the order of emission. -/
structure Labeled (config : Config) (layout : Layout) (is : List Nat) (m n : Nat)
    (labels : List String) : Prop where
  le : m ≤ n
  parts : ∃ numbers body, numbers.length = is.length ∧ numbers.Pairwise (· < ·)
    ∧ (∀ k ∈ numbers, m < k ∧ k ≤ n) ∧ Fresh m n body
    ∧ ∀ x, labels.count x = (is.flatMap fun i => tagged (isEntryAt config layout i)
          ((tags layout.table.program).getD i "")).count x + body.count x
        + (List.zipWith (exitAt (tags layout.table.program)) is numbers).count x

theorem Fresh.mono {m n m' n' : Nat} {l : List String} (h : Fresh m n l) (hm : m' ≤ m) (hn : n ≤ n') :
    Fresh m' n' l :=
  ⟨hm.trans (h.le.trans hn), h.nodup, fun x hx => by
    obtain ⟨s, hs, k, he, hlo, hhi⟩ := h.label x hx
    exact ⟨s, hs, k, he, Nat.lt_of_le_of_lt hm hlo, hhi.trans hn⟩⟩

theorem Labeled.append {config : Config} {layout : Layout} {is js : List Nat} {m n k : Nat}
    {l l' : List String} (h : Labeled config layout is m n l) (h' : Labeled config layout js n k l') :
    Labeled config layout (is ++ js) m k (l ++ l') := by
  obtain ⟨numbers, body, hlen, hpw, hr, hb, hc⟩ := h.parts
  obtain ⟨numbers', body', hlen', hpw', hr', hb', hc'⟩ := h'.parts
  refine ⟨h.le.trans h'.le, numbers ++ numbers', body ++ body', by simp [hlen, hlen'], ?_, ?_,
    hb.append hb', fun x => ?_⟩
  · refine List.pairwise_append.2 ⟨hpw, hpw', fun a ha b hb => ?_⟩
    have h1 := (hr a ha).2
    have h2 := (hr' b hb).1
    omega
  · intro a ha
    have h1 := h.le
    have h2 := h'.le
    rcases List.mem_append.1 ha with ha | ha
    · have := hr a ha
      omega
    · have := hr' a ha
      omega
  · rw [List.count_append, hc, hc', List.flatMap_append, List.zipWith_append hlen.symm]
    simp only [List.count_append]
    omega

theorem labeled_functionAt {config : Config} {layout : Layout} {i : Nat} {f : MoonBackend.Function}
    {scope : Scope} (hs : layout.table.functions[i]? = some scope)
    (hf : layout.table.program.functions[i]? = some f) {k k' : Counts} {code : Code}
    (h : (functionAt config layout (tags layout.table.program) i).run k = (.ok code, k')) :
    Labeled config layout [i] k.labels k'.labels (Code.labelNames code) := by
  rw [run_functionAt hs hf] at h
  obtain ⟨l, hl, hc⟩ := (numbers_function _ f _).answer h
  have hle : k.labels + 1 ≤ k'.labels := hl.le
  have hentry : isEntryAt config layout i = f.isFree config.emit.entryFunction := by
    simp [isEntryAt, hf]
  refine ⟨by omega, [k.labels + 1], l, rfl, List.pairwise_singleton _ _, ?_,
    hl.mono (Nat.le_succ _) (Nat.le_refl _), fun x => ?_⟩
  · intro n hn
    rw [List.mem_singleton.1 hn]
    omega
  · rw [hc]
    simp only [List.flatMap_cons, List.flatMap_nil, List.append_nil, hentry, List.zipWith_cons_cons,
      List.zipWith_nil_left, List.count_append]
    rfl

theorem labeled_functionsAt {config : Config} {layout : Layout} {before : Code}
    (hb : Code.labelNames before = []) {is : List Nat}
    (his : ∀ i ∈ is, (∃ scope, layout.table.functions[i]? = some scope)
      ∧ ∃ f, layout.table.program.functions[i]? = some f) {k k' : Counts} {code : Code}
    (h : (functionsAt config layout (tags layout.table.program) before is).run k = (.ok code, k')) :
    Labeled config layout is k.labels k'.labels (Code.labelNames code) := by
  induction is generalizing k code with
  | nil =>
    cases h
    exact ⟨Nat.le_refl _, [], [], rfl, List.Pairwise.nil, by simp, Fresh.nil _, fun x => rfl⟩
  | cons i is ih =>
    obtain ⟨⟨scope, hs⟩, f, hf⟩ := his i List.mem_cons_self
    rw [functionsAt, run_bind] at h
    rcases h1 : (functionAt config layout (tags layout.table.program) i).run k with ⟨_ | first, k₁⟩
    · rw [h1] at h
      cases h
    · rw [h1] at h
      simp only at h
      rw [run_bind] at h
      rcases h2 : (functionsAt config layout (tags layout.table.program) before is).run k₁ with
        ⟨_ | rest, k₂⟩
      · rw [h2] at h
        cases h
      · rw [h2] at h
        cases h
        have hfirst := labeled_functionAt hs hf h1
        have hrest := ih (fun j hj => his j (List.mem_cons_of_mem _ hj)) h2
        have := hfirst.append hrest
        simpa [hb] using this

/-! ### No label stands twice -/

theorem isFree_main_of_tagStem {f g : Signature} (h : tagStem f = tagStem g)
    (hf : f.isFree "main" = true) : g.isFree "main" = true := by
  have hnames : tagNames f = tagNames g := by
    rw [tagStem_eq, tagStem_eq] at h
    exact String.append_right_inj _ |>.1 h
  unfold Signature.isFree at hf ⊢
  simp only [Bool.and_eq_true, Bool.not_eq_true', beq_iff_eq] at hf ⊢
  have hmain : tagNames g = "main" := by rw [← hnames, tagNames, hf.1, hf.2]; rfl
  unfold tagNames at hmain
  split at hmain
  · have hmem : '_' ∈ "main".toList := by
      rw [← hmain]
      simp
    exact absurd hmem (by decide)
  · rename_i hg
    exact ⟨by simpa using hg, hmain⟩

theorem emissionOrder (config : Config) (layout : Layout) :
    (entryPositions config layout ++ otherPositions config layout).Pairwise fun i j =>
      (isEntryAt config layout i = true → isEntryAt config layout j = true) → i < j := by
  have hrange : (List.range layout.table.functions.length).Pairwise (· < ·) := List.pairwise_lt_range
  refine List.pairwise_append.2 ⟨?_, ?_, ?_⟩
  · refine List.Pairwise.imp ?_ (hrange.filter fun i => isEntryAt config layout i)
    exact fun h _ => h
  · refine List.Pairwise.imp ?_ (hrange.filter fun i => !isEntryAt config layout i)
    exact fun h _ => h
  · intro i hi j hj h
    have hi' := (List.mem_filter.1 hi).2
    have hj' := (List.mem_filter.1 hj).2
    rw [h hi'] at hj'
    cases hj'

theorem not_mem_numbered {stem : String} (hs : stem ∈ bodyStems) (n : Nat) :
    '_' ∉ (numbered stem n).toList := by
  rw [toList_numbered, List.mem_append, not_or]
  refine ⟨(stem_shape stem hs).1, fun h => ?_⟩
  exact absurd (isDigit_of_mem_toDigits _ h) (by decide)

theorem numbered_ne_buffer (stem : String) (n : Nat) : numbered stem n ≠ "buf" := by
  intro h
  obtain ⟨c, cs, hc, hd⟩ := toDigits_head_isDigit n
  have hmem : c ∈ "buf".toList := by
    rw [← h, toList_numbered, hc]
    simp
  have hnone : "buf".toList.any Char.isDigit = false := by decide
  exact List.any_eq_false.1 hnone c hmem hd

theorem mem_tags {p : Program} {i : Nat} {f : MoonBackend.Function} (hf : p.functions[i]? = some f) :
    ∃ rest, ((tags p).getD i "").toList = 'f' :: 'n' :: '_' :: rest := by
  rw [List.getD_eq_getElem?_getD, tags_getElem?, hf]
  exact ⟨_, toList_tagOf _ _⟩

section

variable {layout : Layout} {m n : Nat} {labels : List String} {ps : List Nat}

theorem tagged_nodup {config : Config} (hl : LettersLast layout.table.program.functions)
    (hps : ps.Nodup) (hf : ∀ i ∈ ps, ∃ f, layout.table.program.functions[i]? = some f) :
    (ps.flatMap fun i => tagged (isEntryAt config layout i)
      ((tags layout.table.program).getD i "")).Nodup := by
  have heq : (ps.flatMap fun i => tagged (isEntryAt config layout i)
      ((tags layout.table.program).getD i ""))
      = (ps.filter fun i => !isEntryAt config layout i).map
        fun i => (tags layout.table.program).getD i "" := by
    induction ps with
    | nil => rfl
    | cons i ps ih =>
      rw [List.flatMap_cons, ih (List.nodup_cons.1 hps).2 fun j hj => hf j (List.mem_cons_of_mem _ hj)]
      cases he : isEntryAt config layout i with
      | true => simp [tagged, he]
      | false => simp [tagged, he]
  rw [heq]
  refine List.Nodup.map_on (fun i hi j hj he => ?_) (hps.filter _)
  have hlt : ∀ i ∈ ps.filter fun i => !isEntryAt config layout i,
      i < (tags layout.table.program).length := by
    intro i hi
    obtain ⟨f, hfi⟩ := hf i (List.mem_filter.1 hi).1
    refine Nat.lt_of_not_le fun hle => ?_
    have hnone := List.getElem?_eq_none hle
    rw [tags_getElem?, hfi] at hnone
    cases hnone
  simp only [List.getD_eq_getElem?_getD, List.getElem?_eq_getElem (hlt i hi),
    List.getElem?_eq_getElem (hlt j hj), Option.getD_some] at he
  exact (List.Nodup.getElem_inj_iff (tags_nodup hl)).1 he

theorem exits_nodup (hl : LettersLast layout.table.program.functions)
    (hf : ∀ i ∈ ps, ∃ f, layout.table.program.functions[i]? = some f)
    (hps : ps.Pairwise fun i j =>
      (isEntryAt {} layout i = true → isEntryAt {} layout j = true) → i < j)
    {numbers : List Nat} (hnum : numbers.Pairwise (· < ·)) :
    (List.zipWith (exitAt (tags layout.table.program)) ps numbers).Nodup := by
  refine List.pairwise_iff_getElem.2 fun a b ha hb hab => ?_
  rw [List.length_zipWith] at ha hb
  rw [List.getElem_zipWith, List.getElem_zipWith]
  obtain ⟨f, hfa⟩ := hf _ (List.getElem_mem (by omega : a < ps.length))
  obtain ⟨g, hgb⟩ := hf _ (List.getElem_mem (by omega : b < ps.length))
  refine exitAt_ne hl hfa hgb (List.pairwise_iff_getElem.1 hnum a b (by omega) (by omega) hab)
    fun hst => ?_
  refine List.pairwise_iff_getElem.1 hps a b (by omega) (by omega) hab fun he => ?_
  simp only [isEntryAt, hfa, hgb, Option.any_some] at he ⊢
  exact isFree_main_of_tagStem hst he

/-- The labels of all functions and that of the buffer are different. -/
theorem Labeled.nodup (h : Labeled {} layout ps m n labels)
    (hl : LettersLast layout.table.program.functions)
    (hf : ∀ i ∈ ps, ∃ f, layout.table.program.functions[i]? = some f) (hnd : ps.Nodup)
    (hps : ps.Pairwise fun i j =>
      (isEntryAt {} layout i = true → isEntryAt {} layout j = true) → i < j) :
    (labels ++ ["buf"]).Nodup := by
  obtain ⟨numbers, body, -, hnum, -, hbody, hc⟩ := h.parts
  have hperm : (labels ++ ["buf"]).Perm ((ps.flatMap fun i => tagged (isEntryAt {} layout i)
      ((tags layout.table.program).getD i "")) ++ List.zipWith (exitAt (tags layout.table.program))
        ps numbers ++ (body ++ ["buf"])) := by
    refine List.perm_iff_count.2 fun x => ?_
    simp only [List.count_append, hc]
    omega
  refine hperm.symm.nodup ?_
  -- the first character of a tag is not that of an exit label
  have htag : ∀ x ∈ ps.flatMap (fun i => tagged (isEntryAt {} layout i)
      ((tags layout.table.program).getD i "")), ∃ rest, x.toList = 'f' :: 'n' :: '_' :: rest := by
    intro x hx
    obtain ⟨i, hi, hx⟩ := List.mem_flatMap.1 hx
    obtain ⟨f, hfi⟩ := hf i hi
    unfold tagged at hx
    split at hx
    · cases hx
    · rw [List.mem_singleton.1 hx]
      exact mem_tags hfi
  have hexit : ∀ x ∈ List.zipWith (exitAt (tags layout.table.program)) ps numbers,
      ∃ rest, x.toList = 'e' :: 'n' :: 'd' :: '_' :: rest := by
    intro x hx
    obtain ⟨a, ha, rfl⟩ := List.mem_iff_getElem.1 hx
    rw [List.length_zipWith] at ha
    rw [List.getElem_zipWith]
    obtain ⟨f, hfa⟩ := hf _ (List.getElem_mem (by omega : a < ps.length))
    exact ⟨_, toList_exitAt hfa _⟩
  have hrest : ∀ x ∈ body ++ ["buf"], '_' ∉ x.toList := by
    intro x hx
    rcases List.mem_append.1 hx with hx | hx
    · obtain ⟨stem, hs, k, rfl, -⟩ := hbody.label x hx
      exact not_mem_numbered hs k
    · rw [List.mem_singleton.1 hx]
      decide
  refine List.nodup_append.2 ⟨List.nodup_append.2 ⟨tagged_nodup hl hnd hf,
    exits_nodup hl hf hps hnum, ?_⟩, List.nodup_append.2 ⟨hbody.nodup, by simp, ?_⟩, ?_⟩
  · rintro x hx _ hx' rfl
    obtain ⟨r, hr⟩ := htag x hx
    obtain ⟨r', hr'⟩ := hexit x hx'
    rw [hr] at hr'
    cases hr'
  · rintro x hx _ hx' rfl
    obtain ⟨stem, -, k, hk, -⟩ := hbody.label x hx
    exact numbered_ne_buffer stem k (hk.symm.trans (List.mem_singleton.1 hx'))
  · rintro x hx _ hx' rfl
    refine hrest x hx' ?_
    rcases List.mem_append.1 hx with hx | hx
    · obtain ⟨r, hr⟩ := htag x hx
      simp [hr]
    · obtain ⟨r, hr⟩ := hexit x hx
      simp [hr]

end

theorem labeled_program {config : Config} {layout : Layout} {code : Code} {k k' : Counts}
    (his : ∀ i < layout.table.functions.length, ∃ f, layout.table.program.functions[i]? = some f)
    (h : (program config layout).run k = (.ok code, k')) :
    ∃ labels, Labeled config layout (entryPositions config layout ++ otherPositions config layout)
        k.labels k'.labels labels
      ∧ Code.labelNames code = labels ++ [config.runtime.bufferLabel] := by
  have hthere : ∀ is : List Nat, (∀ i ∈ is, i ∈ List.range layout.table.functions.length) →
      ∀ i ∈ is, (∃ scope, layout.table.functions[i]? = some scope)
        ∧ ∃ f, layout.table.program.functions[i]? = some f := by
    intro is hmem i hi
    have hlt := List.mem_range.1 (hmem i hi)
    exact ⟨⟨_, List.getElem?_eq_getElem hlt⟩, his i hlt⟩
  rw [run_program] at h
  rcases h1 : (functionsAt config layout (tags layout.table.program) []
      (entryPositions config layout)).run k with ⟨_ | entries, k₁⟩
  · rw [h1] at h
    cases h
  · rw [h1] at h
    simp only at h
    rcases h2 : (functionsAt config layout (tags layout.table.program) [.blank]
        (otherPositions config layout)).run k₁ with ⟨_ | others, k₂⟩
    · rw [h2] at h
      cases h
    · rw [h2] at h
      cases h
      have hl1 := labeled_functionsAt rfl (hthere _ fun i hi => (List.mem_filter.1 hi).1) h1
      have hl2 := labeled_functionsAt rfl (hthere _ fun i hi => (List.mem_filter.1 hi).1) h2
      refine ⟨_, hl1.append hl2, ?_⟩
      simp [wrapped]

theorem positions_nodup (config : Config) (layout : Layout) :
    (entryPositions config layout ++ otherPositions config layout).Nodup := by
  refine List.nodup_append.2 ⟨List.nodup_range.filter _, List.nodup_range.filter _, ?_⟩
  rintro i hi _ hi' rfl
  have h1 := (List.mem_filter.1 hi).2
  have h2 := (List.mem_filter.1 hi').2
  rw [h1] at h2
  cases h2

theorem functions_of_resolve {config : Config} {p : Program} {t : Table} {l : Layout}
    (hb : Table.build p = .ok t) (hr : (Layout.ofTable t config).resolve = (.ok (), l)) :
    l.table.functions.length = p.functions.length
      ∧ l.table.program.functions.map Function.toSignature
        = p.functions.map Function.toSignature := by
  obtain ⟨t₀, hscopes, hcomp, ht⟩ := Table.of_build hb
  obtain ⟨hlater, -⟩ := Layout.of_resolve (Table.fresh_of_build hb) hr
  obtain ⟨hlen, hfun⟩ := Table.of_completeFunctions hcomp
  constructor
  · rw [← hlater.functions.length_eq]
    have hsup : (Layout.supplied t config.emit.entryFunction).functions.length
        = t.functions.length := List.length_mapIdx
    rw [hsup, ht]
    exact hscopes.functionCount
  · rw [hlater.program]
    show t.program.functions.map _ = _
    refine List.ext_getElem? fun i => ?_
    rw [List.getElem?_map, List.getElem?_map]
    cases hi : p.functions[i]? with
    | none =>
      have hge := List.getElem?_eq_none_iff.1 hi
      rw [List.getElem?_eq_none_iff.2 (by omega)]
    | some f =>
      obtain ⟨body, -, hf⟩ := hfun i f hi
      rw [hf]
      rfl

/-- No two lines of a compiled program have the same label, if the names of its functions end in
letters. -/
theorem labelNames_nodup_of_compile {p : Program} {c : Compiled}
    (hl : ∀ f ∈ p.functions, endsInLetter f.name = true) (h : (compile {} p).1 = .ok c) :
    (Code.labelNames c.code).Nodup := by
  obtain ⟨t, log, hb, hr, he⟩ := compile_eq_ok.1 h
  obtain ⟨hcount, hheads⟩ := functions_of_resolve hb hr
  have hletters : LettersLast c.layout.table.program.functions := by
    intro f hf
    have hmem : f.toSignature ∈ p.functions.map Function.toSignature := by
      rw [← hheads]
      exact List.mem_map_of_mem hf
    obtain ⟨g, hg, hgf⟩ := List.mem_map.1 hmem
    rw [← hgf]
    exact hl g hg
  have hthere : ∀ i < c.layout.table.functions.length,
      ∃ f, c.layout.table.program.functions[i]? = some f := by
    intro i hi
    have hlen := congrArg List.length hheads
    rw [List.length_map, List.length_map] at hlen
    exact ⟨_, List.getElem?_eq_getElem (by omega)⟩
  obtain ⟨k, hrun⟩ := run_eq_ok.1 (congrArg Prod.fst he)
  obtain ⟨labels, hlabels, hcode⟩ := labeled_program hthere hrun
  rw [hcode]
  refine hlabels.nodup hletters (fun i hi => hthere i ?_) (positions_nodup {} c.layout)
    (emissionOrder {} c.layout)
  rcases List.mem_append.1 hi with hi | hi
  · exact List.mem_range.1 (List.mem_filter.1 hi).1
  · exact List.mem_range.1 (List.mem_filter.1 hi).1

def named (name className : String) (params : List VarDecl) (body : List Stmt) : MoonBackend.Function :=
  { name, className, isConstructor := false, params, returns := .void, body }

/-- Two methods of one stem, since the names of a class and a method can be cut in two ways. -/
def sharedStem : Program :=
  ⟨[⟨"a", [], []⟩, ⟨"a_b", [], []⟩],
    [named "b_c" "a" [] [.when (.int 0) []], named "c" "a_b" [] []]⟩

theorem labelNames_sharedStem_nodup : ∃ c, (compile {} sharedStem).1 = .ok c
    ∧ "fn_a_b_c_2" ∈ Code.labelNames c.code ∧ (Code.labelNames c.code).Nodup := by
  obtain ⟨c, hc, htag⟩ := compile_of_code? {} sharedStem
    (fun code => (Code.labelNames code).contains "fn_a_b_c_2") (by cbv)
  exact ⟨c, hc, by simpa using htag, labelNames_nodup_of_compile (by decide) hc⟩

/-- The second function of the stem `f` and the only one of the stem `f_2`. -/
def clashing : Program :=
  ⟨[], [named "f" "" [] [], named "f" "" [⟨"x", .integer⟩] [], named "f_2" "" [] [],
    named "main" "" [] []]⟩

/-- The number of an overload can spell the name of another function. -/
theorem labelNames_clashing_not_nodup : ∃ c, (compile {} clashing).1 = .ok c
    ∧ ¬ (Code.labelNames c.code).Nodup := by
  obtain ⟨c, hc, hcount⟩ := compile_of_code? {} clashing
    (fun code => 1 < (Code.labelNames code).count "fn_f_2") (by decide +kernel)
  refine ⟨c, hc, fun hnd => ?_⟩
  have hle := List.nodup_iff_count_le_one.1 hnd "fn_f_2"
  have hlt : 1 < (Code.labelNames c.code).count "fn_f_2" := by simpa using hcount
  omega

end MoonBackend.Emit
