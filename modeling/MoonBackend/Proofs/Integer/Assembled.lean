import MoonBackend.Proofs.Integer.Program

/-!
# Assembling an integer program

The text of an integer program with a small frame assembles: its labels are different, its operands
fit and its names are known. Its image starts at address zero and ends with the buffer.
-/

namespace MoonBackend.Integer

open Text Assembly Code

/-! ### Labels -/

theorem labelNames_programCode (f : Function) (s : Scope) :
    labelNames (programCode f s)
      = labelNames (stmtsCode (frameSlots s) exitName [] 0 1 f.body) ++ [exitName] ++ ["buf"] := by
  simp [programCode, Emit.wrapped, functionCode, note, mark]

theorem stem_exit : Stem "end_main" :=
  ⟨by decide, ['e', 'n', 'd', '_', 'm', 'a', 'i'], 'n', rfl, rfl⟩

theorem stem_buffer : Stem "buf" := ⟨by decide, ['b', 'u'], 'f', rfl, rfl⟩

theorem numbered_program (f : Function) (s : Scope) :
    Numbered (0 < ·) (labelNames (stmtsCode (frameSlots s) exitName [] 0 1 f.body) ++ [exitName]) := by
  have hbody := numbered_stmtsCode (frameSlots s) exitName [] 0 1 f.body
  refine (hbody.append (.single stem_exit 1) ?_).mono ?_
  · intro n hn h1
    obtain ⟨h2, -⟩ := hn
    omega
  · rintro n (⟨hn, -⟩ | hn)
    · omega
    · omega

theorem nodup_labelNames (f : Function) (s : Scope) : (labelNames (programCode f s)).Nodup := by
  have h := numbered_program f s
  rw [labelNames_programCode, List.nodup_append]
  refine ⟨h.nodup, by simp, ?_⟩
  intro x hx y hy
  obtain ⟨t, n, -, rfl, -⟩ := h.label x hx
  rw [List.mem_singleton.1 hy]
  exact label_ne stem_buffer n

theorem isIdentifier_labelNames (f : Function) (s : Scope) :
    ∀ x ∈ labelNames (programCode f s), isIdentifier x.toList = true := by
  intro x hx
  rw [labelNames_programCode] at hx
  rcases List.mem_append.1 hx with hx | hx
  · obtain ⟨t, n, ht, rfl, -⟩ := (numbered_program f s).label x hx
    exact isIdentifier_label ht.1 n
  · rw [List.mem_singleton.1 hx]
    rfl

/-! ### Names -/

def programNames (f : Function) (s : Scope) : Names :=
  (programCode f s).names ({} : Runtime).symbols

theorem isIdentifier_symbols :
    ∀ e ∈ ({} : Runtime).symbols, isIdentifier e.1.toList = true := by decide

theorem proper_programNames (f : Function) (s : Scope) : (programNames f s).Proper :=
  names_proper_of_labels (isIdentifier_labelNames f s) isIdentifier_symbols

/-- A name without a number at its end is not given to a line of code. -/
theorem address?_library {x : String} (hx : Stem x) (hb : x ≠ "buf") (f : Function) (s : Scope) :
    (programNames f s).address? x = ({} : Runtime).symbols.lookup x := by
  refine address?_of_not_mem ?_
  rw [labelNames_programCode, List.mem_append, List.mem_singleton]
  rintro (h | h)
  · obtain ⟨t, n, -, he, -⟩ := (numbered_program f s).label x h
    exact label_ne hx n he.symm
  · exact hb h

theorem stem_intstr : Stem "intstr" := ⟨by decide, ['i', 'n', 't', 's', 't'], 'r', rfl, rfl⟩
theorem stem_putstr : Stem "putstr" := ⟨by decide, ['p', 'u', 't', 's', 't'], 'r', rfl, rfl⟩
theorem stem_getstr : Stem "getstr" := ⟨by decide, ['g', 'e', 't', 's', 't'], 'r', rfl, rfl⟩
theorem stem_strint : Stem "strint" := ⟨by decide, ['s', 't', 'r', 'i', 'n'], 't', rfl, rfl⟩
theorem stem_topaddr : Stem "topaddr" := ⟨by decide, ['t', 'o', 'p', 'a', 'd', 'd'], 'r', rfl, rfl⟩

section
variable (f : Function) (s : Scope)

theorem address?_intstr : (programNames f s).address? "intstr" = some 65540 :=
  address?_library stem_intstr (by decide) f s

theorem address?_putstr : (programNames f s).address? "putstr" = some 65544 :=
  address?_library stem_putstr (by decide) f s

theorem address?_getstr : (programNames f s).address? "getstr" = some 65548 :=
  address?_library stem_getstr (by decide) f s

theorem address?_strint : (programNames f s).address? "strint" = some 65552 :=
  address?_library stem_strint (by decide) f s

theorem address?_topaddr : (programNames f s).address? "topaddr" = some 65532 :=
  address?_library stem_topaddr (by decide) f s

theorem address?_of_label {x : String} (hx : x ∈ labelNames (programCode f s)) :
    ((programNames f s).address? x).isSome = true :=
  address?_isSome (.inl hx)

end

/-! ### Lines -/

section
variable {p : Program} {f : Function} {t : Table} {s s' : Scope} {l : Layout}

theorem toInt_frameSize (h : 4 * s.entries.length ≤ 32768) :
    (frameSlots s).size.toInt = 4 * s.entries.length := by
  show (Int64.ofNat (4 * s.entries.length)).toInt = _
  rw [Int64.toInt_ofNat_of_lt (by omega)]
  push_cast
  rfl

theorem linked_of_laidOut (hp : IsProgram p f) (hg : Ground f t s) (hl : LaidOut f t s l s')
    (hsize : 4 * s'.entries.length ≤ 32768) :
    Linked (programNames f s') (frameSlots s') exitName := by
  have hf := framed_of_laidOut hp hg hl
  have hnear : ∀ (i : Nat) (e : Entry) (o : Int64), s'.entries[i]? = some e → e.offset = some o →
      -32768 ≤ o.toInt ∧ o.toInt ≤ 0 := by
    intro i e o hi ho
    obtain ⟨h1, h2⟩ := hf.toInt_offset hsize hi ho
    omega
  refine ⟨proper_programNames f s', named_of_laidOut hp hg hl, ?_, ?_, ?_, ?_⟩
  · simp only [List.mem_cons, List.not_mem_nil, or_false, forall_eq_or_imp, forall_eq,
      address?_intstr, address?_putstr, address?_getstr, address?_strint, Option.isSome_some,
      true_and]
    exact ⟨address?_of_label f s' (by simp [labelNames_programCode]),
      address?_of_label f s' (by simp [labelNames_programCode])⟩
  · intro n o ho
    obtain ⟨i, e, hi, -, -, -, hoff⟩ := Framed.exists_of_var ho
    exact hnear i e o hi hoff
  · intro q o ho
    obtain ⟨i, e, hi, -, -, -, hoff⟩ := Framed.exists_of_temp ho
    exact hnear i e o hi hoff
  · rw [toInt_frameSize hsize]
    omega

theorem oneLine_signature (hp : IsProgram p f) : OneLine f.toSignature.text := by
  have hm : f.toSignature.isMember = false := by simp [Signature.isMember, hp.free]
  have hparams : OneLine (", ".intercalate (f.params.map VarDecl.text)) := by
    refine oneLine_intercalate fun x hx => ?_
    obtain ⟨d, hd, rfl⟩ := List.mem_map.1 hx
    have hdecl := hp.params d hd
    rw [VarDecl.text, oneLine_append, oneLine_append, hdecl.type]
    exact ⟨⟨hdecl.oneLine, by decide⟩, by decide⟩
  rw [Signature.text, Signature.qualifiedName, hm, if_neg Bool.false_ne_true, hp.name, hp.returns]
  simp only [oneLine_append]
  exact ⟨⟨⟨⟨⟨by decide, by decide⟩, by decide⟩, hparams⟩, by decide⟩, by decide⟩

theorem acceptable_functionCode (hp : IsProgram p f) (hg : Ground f t s) (hl : LaidOut f t s l s')
    (hsize : 4 * s'.entries.length ≤ 32768) :
    Acceptable (programNames f s') (functionCode f s') := by
  have hlinked := linked_of_laidOut hp hg hl hsize
  simp only [functionCode, acceptable_append]
  refine ⟨⟨⟨acceptable_comment (oneLine_signature hp), acceptable_comment ?_⟩, ?_⟩, ?_⟩
  · exact oneLine_append.2 ⟨by decide, oneLine_decimal _⟩
  · refine acceptable_stmtsCode hlinked hp.body (covered_of_laidOut hp hg hl) fun x hx => ?_
    exact address?_of_label f s' (by simp [labelNames_programCode, hx])
  · exact acceptable_mark hlinked.proper (isIdentifier_label stem_exit.1 1)

def afterEntry (f : Function) (s : Scope) : Code :=
  plain [.named .addi stack zero "topaddr"] ++ functionCode f s ++ plain [.bare .hlt]
    ++ [.blank, .comment "data"] ++ [.labeled "buf" (.reserve 20)]

theorem programCode_eq (f : Function) (s : Scope) :
    programCode f s = [.comment "generated by moonc"] ++ .plain .entry :: afterEntry f s := by
  simp [programCode, Emit.wrapped, afterEntry, plain, stack, zero]

theorem acceptable_afterEntry (hp : IsProgram p f) (hg : Ground f t s) (hl : LaidOut f t s l s')
    (hsize : 4 * s'.entries.length ≤ 32768) :
    Acceptable (programNames f s') (afterEntry f s') := by
  have hn := proper_programNames f s'
  simp only [afterEntry, acceptable_append]
  refine ⟨⟨⟨⟨acceptable_plain hn ?_, acceptable_functionCode hp hg hl hsize⟩,
    acceptable_plain hn ?_⟩, ?_⟩, ?_⟩
  · simp only [List.mem_singleton, forall_eq]
    exact Item.proper_named rfl rfl (by rw [address?_topaddr]; rfl)
  · simp only [List.mem_singleton, forall_eq]
    exact Item.proper_bare (by decide) rfl
  · rw [acceptable_cons]
    exact ⟨⟨trivial, by simp [Line.Known, Line.item?], rfl, by simp [Line.item?]⟩,
      acceptable_comment (by decide)⟩
  · rw [acceptable_cons]
    exact ⟨⟨⟨by decide, by decide⟩, by simp [Line.Known, Line.item?], rfl, by simp [Line.item?]⟩,
      acceptable_nil⟩

theorem acceptable_line (hp : IsProgram p f) (hg : Ground f t s) (hl : LaidOut f t s l s')
    (hsize : 4 * s'.entries.length ≤ 32768) :
    ∀ x ∈ programCode f s', x = .plain .entry ∨ x.Acceptable (programNames f s') := by
  intro x hx
  rw [programCode_eq] at hx
  rcases List.mem_append.1 hx with hx | hx
  · exact .inr (acceptable_comment (s := "generated by moonc") (by decide) x hx)
  · rcases List.mem_cons.1 hx with hx | hx
    · exact .inl hx
    · exact .inr (acceptable_afterEntry hp hg hl hsize x hx)

theorem readable_programCode (hp : IsProgram p f) (hg : Ground f t s) (hl : LaidOut f t s l s')
    (hsize : 4 * s'.entries.length ≤ 32768) : ∀ x ∈ programCode f s', x.Readable := by
  intro x hx
  rcases acceptable_line hp hg hl hsize x hx with rfl | h
  · trivial
  · exact h.readable

/-! ### The image -/

/-- What the machine is given for an integer program. -/
structure Assembled (f : Function) (s : Scope) (image : Image) : Prop where
  assemble : assemble (text (programCode f s)) ({} : Runtime).symbols = .ok image
  entry : image.entry = 0
  size : image.size.toInt = size (programCode f s)
  blank : Pass.Blank image.data (Code.size (programCode f s))
  holds : Site.Holds ⟨image, {}, programNames f s⟩ 0 (programCode f s)

theorem routine?_eq_none {x : Nat} (h : x ≤ 65536) :
    ({} : Runtime).routine? (Int32.ofNat x) = none := by
  have hne : ∀ k : Nat, 65536 < k → k < 2 ^ 31 → Int32.ofNat x ≠ Int32.ofNat k := by
    intro k h1 h2 he
    have := Pass.ofNat_inj_of_lt (by omega) (by omega) he
    omega
  have h1 := hne 65540 (by decide) (by decide)
  have h2 := hne 65544 (by decide) (by decide)
  have h3 := hne 65548 (by decide) (by decide)
  have h4 := hne 65552 (by decide) (by decide)
  have hbase : ({} : Runtime).libraryBase = 65540 := by decide
  simp only [Runtime.routine?, hbase]
  rw [if_neg (by simpa using h1), if_neg (by simpa using h2), if_neg (by simpa using h3),
    if_neg (by simpa using h4)]

theorem exists_assembled (hp : IsProgram p f) (hg : Ground f t s) (hl : LaidOut f t s l s')
    (hframe : 4 * s'.entries.length ≤ 32768) (hsize : size (programCode f s') ≤ 65536) :
    ∃ image, Assembled f s' image := by
  have hread := readable_programCode hp hg hl hframe
  have hcount : (programCode f s').countP (fun l => l.item? == some .entry) ≤ 1 := by
    have hrest : (afterEntry f s').countP (fun l => l.item? == some .entry) = 0 := by
      rw [List.countP_eq_zero]
      intro x hx
      simpa using (acceptable_afterEntry hp hg hl hframe x hx).ordinary
    have hhead : [Line.comment "generated by moonc"].countP (fun l => l.item? == some .entry) = 0 := by
      decide
    rw [programCode_eq, List.countP_append, hhead, List.countP_cons, hrest]
    decide
  obtain ⟨image, himage⟩ := exists_assemble hread isIdentifier_symbols
    (by rw [map_fst_labelsFrom]; exact nodup_labelNames f s')
    (fun x hx => by
      rcases acceptable_line hp hg hl hframe x hx with rfl | h
      · simp [Line.Known, Line.item?]
      · exact h.known)
    (fun x hx => by
      rcases acceptable_line hp hg hl hframe x hx with rfl | h
      · rfl
      · exact h.whole)
    hcount
  obtain ⟨hcode, hblank⟩ := image_of_assemble hread isIdentifier_symbols himage (by omega)
  refine ⟨image, himage, ?_, ?_, hblank, ?_⟩
  · have h := himage
    rw [programCode_eq] at h hread
    exact entry_of_assemble hread isIdentifier_symbols h
      (fun x hx => (acceptable_afterEntry hp hg hl hframe x hx).ordinary) (by decide)
  · obtain ⟨h1, h2⟩ := Image.size_bounds (by omega) hcode hblank.size
    have hlast : programCode f s' = ([.comment "generated by moonc", .plain .entry]
        ++ (plain [.named .addi stack zero "topaddr"] ++ functionCode f s' ++ plain [.bare .hlt]
          ++ [.blank, .comment "data"])) ++ [.labeled "buf" (.reserve 20)] := by
      rw [programCode_eq, afterEntry]
      simp
    have h3 := size_data_of_assemble (hlast ▸ hread) isIdentifier_symbols (hlast ▸ himage)
      (by decide) (by rw [← hlast]; omega)
    rw [← hlast] at h3
    omega
  · refine holds_of_assemble hread isIdentifier_symbols himage (by omega) fun x hx => ?_
    exact routine?_eq_none (by omega)

end

end MoonBackend.Integer
