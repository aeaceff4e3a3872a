import MoonBackend.Proofs.Assembly.Passes

/-!
# The exact image

From what a line does to the second pass, by induction over the lines, what the image of an accepted
text is: each instruction and each byte at the address of its line, zeros between them, and the
labels and the entry at the addresses that both passes count.
-/

namespace MoonBackend.Assembly

open Text

def SourceLine.isInstruction (l : SourceLine) : Bool := (Opcode.parse? l.mnemonic).isSome

/-- Every instruction stands at the address of its line, and there is no other code. -/
structure Coded (names : Names) (lines : List SourceLine) (image : Image) : Prop where
  code : ∀ before l after op, lines = before ++ l :: after → Opcode.parse? l.mnemonic = some op →
    addressAfter before % 4 = 0
      ∧ ∃ i, parseInstruction names l.number op l.operands = .ok i
        ∧ image.code[Int32.ofNat (addressAfter before)]? = some i
        ∧ image.lines[Int32.ofNat (addressAfter before)]? = some l.number
  only : ∀ x, x ∈ image.code ∨ x ∈ image.lines → ∃ before l after, lines = before ++ l :: after
    ∧ l.isInstruction = true ∧ x = Int32.ofNat (addressAfter before)
  count : image.code.size = lines.countP (·.isInstruction)
    ∧ image.lines.size = lines.countP (·.isInstruction)

/-- The bytes of every `dw` and `db` line stand at the address of the line, and all other bytes are
zero. -/
structure Stored (names : Names) (lines : List SourceLine) (data : Array UInt8) : Prop where
  size : data.size ≤ addressAfter lines
  bytes : ∀ before l after, lines = before ++ l :: after → l.mnemonic = "dw" ∨ l.mnemonic = "db" →
    ∃ bs, l.Asks names bs ∧ ∀ k b, bs[k]? = some b → data[addressAfter before + k]? = some b
  zero : ∀ x b, data[x]? = some b →
    (∀ before l after, lines = before ++ l :: after → l.mnemonic = "dw" ∨ l.mnemonic = "db" →
      x < addressAfter before ∨ l.finish (addressAfter before) ≤ x) → b = 0

def Enters (lines : List SourceLine) (entry : Int32) : Prop :=
  ∀ before l after, lines = before ++ l :: after → l.mnemonic = "entry" →
    entry = Int32.ofNat (addressAfter before)

section
variable {names : Names} {lines : List SourceLine} {l : SourceLine} {p p' : Pass}

theorem mod_four_of_ofNat {a : Nat} (ha : a < 2 ^ 31) (h : Int32.ofNat a % 4 = 0) : a % 4 = 0 := by
  have hn := congrArg Int32.toInt h
  rw [Int32.toInt_mod, show (4 : Int32).toInt = 4 from rfl, Int32.toInt_ofNat_of_lt ha,
    Int.tmod_eq_emod_of_nonneg (by omega), Int32.toInt_zero] at hn
  omega

theorem Coded.fresh {image : Image} (h : Coded names lines image)
    (hlt : addressAfter lines < 2 ^ 31) {x : Int32} (hx : x ∈ image.code ∨ x ∈ image.lines) :
    x ≠ Int32.ofNat (addressAfter lines) := by
  obtain ⟨before, m, after, hsplit, hm, rfl⟩ := h.only x hx
  obtain ⟨op, hop⟩ := Option.isSome_iff_exists.1 hm
  have hle := addressAfter_le (before ++ [m]) after
  rw [List.append_assoc, List.singleton_append, ← hsplit, addressAfter_snoc, SourceLine.finish,
    SourceLine.start_instruction hop, SourceLine.extent_instruction hop] at hle
  intro he
  have := Pass.ofNat_inj_of_lt (by omega) (by omega) he
  omega

theorem Coded.snoc_instruction (h : Coded names lines p.image)
    (ha : p.address = Int32.ofNat (addressAfter lines)) (hlt : addressAfter lines < 2 ^ 31)
    {op : Opcode} {i : MachineInstruction} (hop : Opcode.parse? l.mnemonic = some op)
    (hi : parseInstruction names l.number op l.operands = .ok i) (halign : p.address % 4 = 0) :
    Coded names (lines ++ [l]) (p.withInstruction l.number i).image := by
  have hcode : (p.withInstruction l.number i).image.code
      = p.image.code.insert (Int32.ofNat (addressAfter lines)) i := by
    rw [← ha]
    rfl
  have hlines : (p.withInstruction l.number i).image.lines
      = p.image.lines.insert (Int32.ofNat (addressAfter lines)) l.number := by
    rw [← ha]
    rfl
  have hnew : Int32.ofNat (addressAfter lines) ∉ p.image.code :=
    fun hx => h.fresh hlt (.inl hx) rfl
  have hnew' : Int32.ofNat (addressAfter lines) ∉ p.image.lines :=
    fun hx => h.fresh hlt (.inr hx) rfl
  constructor
  · intro before m after op' hsplit hop'
    rw [hcode, hlines]
    rcases split_snoc hsplit with ⟨rfl, rfl, -⟩ | ⟨rest, hrest⟩
    · rw [ha] at halign
      rw [hop] at hop'
      cases Option.some.inj hop'
      exact ⟨mod_four_of_ofNat hlt halign, i, hi, Std.TreeMap.getElem?_insert_self,
        Std.TreeMap.getElem?_insert_self⟩
    · obtain ⟨h4, j, hj, hc, hl⟩ := h.code before m rest op' hrest hop'
      have hmem : Int32.ofNat (addressAfter before) ∈ p.image.code :=
        Std.TreeMap.mem_iff_isSome_getElem?.2 (by rw [hc]; rfl)
      have hne := (h.fresh hlt (.inl hmem)).symm
      refine ⟨h4, j, hj, ?_, ?_⟩
      · rw [Std.TreeMap.getElem?_insert]
        simpa [hne] using hc
      · rw [Std.TreeMap.getElem?_insert]
        simpa [hne] using hl
  · intro x hx
    rw [hcode, hlines, Std.TreeMap.mem_insert, Std.TreeMap.mem_insert] at hx
    by_cases he : x = Int32.ofNat (addressAfter lines)
    · exact ⟨lines, l, [], rfl, by simp [SourceLine.isInstruction, hop], he⟩
    · have hne : compare (Int32.ofNat (addressAfter lines)) x ≠ .eq := by
        simpa using Ne.symm he
      obtain ⟨before, m, after, hsplit, hm⟩ := h.only x (by simpa [hne] using hx)
      exact ⟨before, m, after ++ [l], by rw [hsplit]; simp, hm⟩
  · rw [← Std.TreeMap.contains_iff_mem] at hnew hnew'
    rw [hcode, hlines, Std.TreeMap.size_insert, Std.TreeMap.size_insert, if_neg hnew,
      if_neg hnew', h.count.1, h.count.2, List.countP_append]
    simp [SourceLine.isInstruction, hop]

theorem Coded.snoc (h : Coded names lines p.image)
    (ha : p.address = Int32.ofNat (addressAfter lines)) (hlt : addressAfter lines < 2 ^ 31)
    (hstep : Pass.Step names l p p') : Coded names (lines ++ [l]) p'.image := by
  cases hop : Opcode.parse? l.mnemonic with
  | some op =>
    obtain ⟨i, hi, halign, rfl⟩ := hstep.code_of_some hop
    exact h.snoc_instruction ha hlt hop hi halign
  | none =>
    obtain ⟨hc, hl⟩ := hstep.code_of_none hop
    constructor
    · intro before m after op' hsplit hop'
      rcases split_snoc hsplit with ⟨-, rfl, -⟩ | ⟨rest, hrest⟩
      · rw [hop] at hop'
        cases hop'
      · rw [hc, hl]
        exact h.code before m rest op' hrest hop'
    · intro x hx
      rw [hc, hl] at hx
      obtain ⟨before, m, after, hsplit, hm⟩ := h.only x hx
      exact ⟨before, m, after ++ [l], by rw [hsplit]; simp, hm⟩
    · rw [hc, hl, h.count.1, h.count.2, List.countP_append]
      simp [SourceLine.isInstruction, hop]

theorem getD_of_getElem? {data : Array UInt8} {x : Nat} {b : UInt8} (h : data[x]? = some b) :
    data.getD x 0 = b := by
  rw [Array.getD_eq_getD_getElem?, h]
  rfl

theorem getElem?_of_lt {data : Array UInt8} {x : Nat} (h : x < data.size) :
    data[x]? = some (data.getD x 0) := by
  rw [Array.getD_eq_getD_getElem?, Array.getElem?_eq_getElem h]
  rfl

theorem Stored.snoc_bytes (h : Stored names lines p.image.data)
    (ha : p.address = Int32.ofNat (addressAfter lines))
    (hend : l.finish (addressAfter lines) < 2 ^ 31) {bs : List UInt8} (hbs : l.Asks names bs) :
    Stored names (lines ++ [l]) (p.putAll bs).image.data := by
  have hfinish : l.finish (addressAfter lines) = addressAfter lines + bs.length := by
    rw [SourceLine.finish, hbs.start_eq, hbs.length]
  obtain ⟨hsize, hget⟩ := @Pass.putAll_data p _ ha bs (by omega)
  have hle := h.size
  have hmono : p.image.data.size ≤ (p.putAll bs).image.data.size := by
    rw [hsize]
    split
    · exact Nat.le_refl _
    · exact Nat.le_max_left _ _
  constructor
  · rw [addressAfter_snoc, hfinish, hsize]
    split <;> omega
  · intro before m after hsplit hm
    rcases split_snoc hsplit with ⟨rfl, rfl, -⟩ | ⟨rest, hrest⟩
    · refine ⟨bs, hbs, ?_⟩
      intro k b hk
      obtain ⟨hlt, hb⟩ := List.getElem?_eq_some_iff.1 hk
      have hne : bs ≠ [] := List.ne_nil_of_length_pos (by omega)
      rw [if_neg hne] at hsize
      rw [getElem?_of_lt (by omega), hget, if_pos (by omega), Nat.add_sub_cancel_left,
        List.getD_eq_getElem?_getD, hk]
      rfl
    · obtain ⟨cs, hcs, hall⟩ := h.bytes before m rest hrest hm
      refine ⟨cs, hcs, ?_⟩
      intro k b hk
      have hold := hall k b hk
      obtain ⟨hlt, -⟩ := Array.getElem?_eq_some_iff.1 hold
      rw [getElem?_of_lt (by omega), hget, if_neg (by omega), getD_of_getElem? hold]
  · intro x b hx hout
    have hmnemonic : l.mnemonic = "dw" ∨ l.mnemonic = "db" := by
      obtain ⟨vs, -, ⟨hm, -⟩ | ⟨hm, -⟩⟩ := hbs
      · exact .inl hm
      · exact .inr hm
    have hlast := hout lines l [] rfl hmnemonic
    have hval := getD_of_getElem? hx
    rw [hget, if_neg (by omega)] at hval
    by_cases hlt : x < p.image.data.size
    · apply h.zero x b
      · rw [getElem?_of_lt hlt, hval]
      · intro before m after hsplit hm
        exact hout before m (after ++ [l]) (by rw [hsplit]; simp) hm
    · rw [Array.getD_eq_getD_getElem?, Array.getElem?_eq_none (by omega)] at hval
      exact hval.symm

theorem Stored.snoc (h : Stored names lines p.image.data)
    (ha : p.address = Int32.ofNat (addressAfter lines))
    (hend : l.finish (addressAfter lines) < 2 ^ 31) (hstep : Pass.Step names l p p') :
    Stored names (lines ++ [l]) p'.image.data := by
  by_cases hm : l.mnemonic = "dw" ∨ l.mnemonic = "db"
  · obtain ⟨bs, hbs, rfl⟩ := hstep.data_of_asks hm
    exact h.snoc_bytes ha hend hbs
  · obtain ⟨hmono, hsize, hget⟩ := hstep.data_of_not hm ha hend h.size
    constructor
    · rw [addressAfter_snoc]
      exact hsize
    · intro before m after hsplit hm'
      rcases split_snoc hsplit with ⟨-, rfl, -⟩ | ⟨rest, hrest⟩
      · exact absurd hm' hm
      · obtain ⟨bs, hbs, hall⟩ := h.bytes before m rest hrest hm'
        refine ⟨bs, hbs, ?_⟩
        intro k b hk
        have hold := hall k b hk
        obtain ⟨hlt, -⟩ := Array.getElem?_eq_some_iff.1 hold
        rw [getElem?_of_lt (by omega), hget, getD_of_getElem? hold]
    · intro x b hx hout
      have hval := getD_of_getElem? hx
      rw [hget] at hval
      by_cases hlt : x < p.image.data.size
      · apply h.zero x b
        · rw [getElem?_of_lt hlt, hval]
        · intro before m after hsplit hm'
          exact hout before m (after ++ [l]) (by rw [hsplit]; simp) hm'
      · rw [Array.getD_eq_getD_getElem?, Array.getElem?_eq_none (by omega)] at hval
        exact hval.symm

theorem Enters.snoc (h : Enters lines p.image.entry)
    (ha : p.address = Int32.ofNat (addressAfter lines))
    (hseen : ∀ m ∈ lines, m.mnemonic = "entry" → p.entrySeen = true)
    (hstep : Pass.Step names l p p') :
    Enters (lines ++ [l]) p'.image.entry
      ∧ ∀ m ∈ lines ++ [l], m.mnemonic = "entry" → p'.entrySeen = true := by
  by_cases hm : l.mnemonic = "entry"
  · obtain ⟨hopen, rfl⟩ := hstep.entry_of_eq hm
    refine ⟨?_, fun _ _ _ => rfl⟩
    intro before m after hsplit he
    rcases split_snoc hsplit with ⟨rfl, -, -⟩ | ⟨rest, hrest⟩
    · exact ha
    · have := hseen m (by rw [hrest]; simp) he
      rw [hopen] at this
      cases this
  · obtain ⟨hentry, hsame⟩ := hstep.entry_of_ne hm
    constructor
    · intro before m after hsplit he
      rcases split_snoc hsplit with ⟨-, rfl, -⟩ | ⟨rest, hrest⟩
      · exact absurd he hm
      · rw [hentry]
        exact h before m rest hrest he
    · intro m hmem he
      rw [hsame]
      rcases List.mem_append.1 hmem with hmem | hmem
      · exact hseen m hmem he
      · rw [List.mem_singleton.1 hmem] at he
        exact absurd he hm

end

/-! ### Runs -/

/-- What the second pass has done after lines. -/
structure Pass.Ran (names : Names) (lines : List SourceLine) (p : Pass) : Prop where
  address : p.address = Int32.ofNat (addressAfter lines)
  coded : Coded names lines p.image
  stored : Stored names lines p.image.data
  enters : Enters lines p.image.entry
  seen : ∀ l ∈ lines, l.mnemonic = "entry" → p.entrySeen = true

theorem Pass.ran_nil (names : Names) : Ran names [] {} := by
  have hsplit : ∀ (before after : List SourceLine) (l : SourceLine), [] ≠ before ++ l :: after := by
    intro before after l h
    simp at h
  constructor
  · rfl
  · constructor
    · intro before l after op h
      exact absurd h (hsplit before after l)
    · intro x hx
      simp at hx
    · exact ⟨rfl, rfl⟩
  · constructor
    · exact Nat.le_refl 0
    · intro before l after h
      exact absurd h (hsplit before after l)
    · intro x b hx
      simp at hx
  · intro before l after h
    exact absurd h (hsplit before after l)
  · intro l hl
    cases hl

theorem Pass.lines_append (names : Names) (xs ys : List SourceLine) (p : Pass) :
    Pass.lines names (xs ++ ys) p
      = (Pass.lines names xs p).bind fun p₁ => Pass.lines names ys p₁ := by
  induction xs generalizing p with
  | nil => rfl
  | cons x xs ih =>
    rw [List.cons_append, Pass.lines, Pass.lines]
    cases p.line names x with
    | error e => rfl
    | ok p₁ => exact ih p₁

theorem Pass.ran_of_lines {names : Names} {lines : List SourceLine} {p : Pass}
    (h : Pass.lines names lines {} = .ok p) (hend : addressAfter lines < 2 ^ 31) :
    p.Ran names lines := by
  induction lines using List.reverseRecOn generalizing p with
  | nil =>
    rw [← Except.ok.inj h]
    exact ran_nil names
  | append_singleton lines l ih =>
    have hbefore : addressAfter lines < 2 ^ 31 :=
      Nat.lt_of_le_of_lt (addressAfter_le lines [l]) hend
    rw [addressAfter_snoc] at hend
    rw [lines_append] at h
    cases hp : Pass.lines names lines {} with
    | error e =>
      rw [hp] at h
      cases h
    | ok p₁ =>
      rw [hp] at h
      have hran := ih hp hbefore
      have hline : p₁.line names l = .ok p := by
        cases hl : p₁.line names l with
        | error e =>
          simp only [Except.bind, Pass.lines, hl] at h
          cases h
        | ok p₂ =>
          simp only [Except.bind, Pass.lines, hl] at h
          exact h
      have hstep := step_of_line hline
      obtain ⟨henters, hseen⟩ := hran.enters.snoc hran.address hran.seen hstep
      exact ⟨by rw [addressAfter_snoc]; exact hstep.address hran.address hbefore,
        hran.coded.snoc hran.address hbefore hstep, hran.stored.snoc hran.address hend hstep,
        henters, hseen⟩

theorem number_of_parseItem {n : Nat} {label : String} {ws : List (List Char)} {line : SourceLine}
    (h : parseItem n label ws = .ok line) : line.number = n := by
  cases ws with
  | nil => rw [← Except.ok.inj h]
  | cons name rest =>
    obtain ⟨ops, -, hline⟩ := bind_eq_ok.1 h
    rw [← Except.ok.inj hline]

theorem number_of_parseLine {n : Nat} {raw : List Char} {line : SourceLine}
    (h : parseLine n raw = .ok line) : line.number = n := by
  simp only [parseLine] at h
  split at h
  · split at h
    · exact number_of_parseItem h
    · split at h
      · exact number_of_parseItem h
      · cases h
  · rw [← Except.ok.inj h]

theorem number_of_parseLinesFrom {raws : List (List Char)} {n : Nat}
    {done source : List SourceLine} (h : parseLinesFrom n done raws = .ok source)
    (hn : n = done.length + 1)
    (hdone : ∀ before l after, done.reverse = before ++ l :: after → l.number = before.length + 1) :
    ∀ before l after, source = before ++ l :: after → l.number = before.length + 1 := by
  induction raws generalizing n done with
  | nil =>
    rw [← Except.ok.inj h]
    exact hdone
  | cons raw raws ih =>
    rw [parseLinesFrom] at h
    cases hl : parseLine n raw with
    | error e =>
      rw [hl] at h
      cases h
    | ok line =>
      rw [hl] at h
      have hnumber := number_of_parseLine hl
      refine ih h (by rw [List.length_cons]; omega) ?_
      intro before m after hsplit
      rw [List.reverse_cons] at hsplit
      rcases split_snoc hsplit with ⟨rfl, rfl, -⟩ | ⟨rest, hrest⟩
      · rw [hnumber, List.length_reverse]
        exact hn
      · exact hdone before m rest hrest

theorem assemble_eq_ok {text : String} {symbols : List (String × Int32)} {image : Image} :
    assemble text symbols = .ok image ↔
      ∃ source labels p, parseLines text = .ok source ∧ collectLabels 0 [] source = .ok labels
        ∧ Pass.lines ⟨labels, symbols⟩ source {} = .ok p
        ∧ image = { p.image with labels := labels } := by
  simp only [assemble, bind_eq_ok, pure, Except.pure, Except.ok.injEq]
  constructor
  · rintro ⟨source, hs, labels, hl, p, hp, rfl⟩
    exact ⟨source, labels, p, hs, hl, hp, rfl⟩
  · rintro ⟨source, labels, p, hs, hl, hp, rfl⟩
    exact ⟨source, hs, labels, hl, p, hp, rfl⟩

/-- An accepted text whose addresses stay positive words has an exact image. Both passes come to
every line with the same address; labels, entry, instructions and bytes stand at the addresses of
their lines; and the ranges of the lines follow one another. -/
theorem assemble_exact {text : String} {symbols : List (String × Int32)} {image : Image}
    {source : List SourceLine} (hsource : parseLines text = .ok source)
    (h : assemble text symbols = .ok image) (hend : addressAfter source ≤ 2 ^ 31 - 1) :
    (∀ before rest, source = before ++ rest → ∃ labels p,
      (∀ rest', collectLabels 0 [] (before ++ rest')
        = collectLabels (Int32.ofNat (addressAfter before)) labels rest')
      ∧ Pass.lines ⟨image.labels, symbols⟩ before {} = .ok p
      ∧ p.address = Int32.ofNat (addressAfter before))
    ∧ (∀ before l after, source = before ++ l :: after → l.number = before.length + 1)
    ∧ Labeled source image.labels ∧ Enters source image.entry
    ∧ Coded ⟨image.labels, symbols⟩ source image
    ∧ Stored ⟨image.labels, symbols⟩ source image.data
    ∧ ∀ before l middle l' after, source = before ++ l :: (middle ++ l' :: after) →
      l.finish (addressAfter before) ≤ l'.start (addressAfter (before ++ l :: middle)) := by
  obtain ⟨source', labels, p, hs, hlabels, hp, rfl⟩ := assemble_eq_ok.1 h
  rw [hsource] at hs
  cases Except.ok.inj hs
  have hran := Pass.ran_of_lines hp (by omega)
  have hlabeled : Labeled source labels := by
    rw [← List.append_nil source] at hlabels
    obtain ⟨labels', hrun, hlabeled⟩ := exists_collected hlabels (by omega)
    rw [hrun] at hlabels
    rwa [← Except.ok.inj hlabels]
  refine ⟨?_, ?_, hlabeled, hran.enters, ⟨hran.coded.code, hran.coded.only, hran.coded.count⟩,
    hran.stored, fun _ _ _ _ _ _ => finish_le_start⟩
  · rintro before rest rfl
    have hbefore := addressAfter_le before rest
    obtain ⟨labels', hrun, -⟩ := exists_collected hlabels (by omega)
    rw [Pass.lines_append] at hp
    cases hp' : Pass.lines ⟨labels, symbols⟩ before {} with
    | error e =>
      rw [hp'] at hp
      cases hp
    | ok p' => exact ⟨labels', p', hrun, rfl, (Pass.ran_of_lines hp' (by omega)).address⟩
  · apply number_of_parseLinesFrom hsource rfl
    intro before l after hsplit
    simp at hsplit

/-- Every kind of line, with a gap before the last one. -/
def mixedText : String :=
  "x        db 1,-1\n         align\n         entry\nmain     lw r1,x(r0)\n         hlt\n" ++
  "y        dw -2,main\n         org 40\nbuf      res 8\n         dw 0x1234\n"

theorem assemble_mixedText : ∃ source image, parseLines mixedText = .ok source
    ∧ assemble mixedText [] = .ok image ∧ addressAfter source ≤ 2 ^ 31 - 1
    ∧ Labeled source image.labels ∧ Enters source image.entry
    ∧ Coded ⟨image.labels, []⟩ source image ∧ Stored ⟨image.labels, []⟩ source image.data := by
  have hcheck : (match parseLines mixedText with
      | .ok source => decide (addressAfter source ≤ 2 ^ 31 - 1)
        && (match assemble mixedText [] with | .ok _ => true | .error _ => false)
      | .error _ => false) = true := by decide +kernel
  split at hcheck
  · rename_i source hs
    rw [Bool.and_eq_true, decide_eq_true_eq] at hcheck
    obtain ⟨hend, hok⟩ := hcheck
    split at hok
    · rename_i image himage
      obtain ⟨-, -, hlabeled, henters, hcoded, hstored, -⟩ := assemble_exact hs himage hend
      exact ⟨source, image, hs, himage, hend, hlabeled, henters, hcoded, hstored⟩
    · cases hok
  · cases hcheck

end MoonBackend.Assembly
