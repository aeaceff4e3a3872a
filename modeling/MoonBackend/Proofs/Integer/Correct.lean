import MoonBackend.Proofs.Integer.Assembled
import MoonBackend.Proofs.Integer.Resolve
import MoonBackend.Proofs.Integer.Simulation

/-!
# Integer programs run as they mean

The whole way of an integer program: it compiles, its text assembles, and its image runs on the
machine to a halt with the output that the program means, or to a division by zero where the program
divides by zero.
-/

namespace MoonBackend.Integer

open Machine Code Assembly

/-! ### The loaded machine -/

def loaded (image : Image) (input : List UInt8) : Machine where
  pc := image.entry
  memory := .ofData image.data 65536
  input := input
  image := image
  runtime := {}

section
variable {p : Program} {f : Function} {t : Table} {s s' : Scope} {l : Layout} {image : Image}

theorem ofImage_eq (h : Assembled f s image) (hsize : size (programCode f s) ≤ 65536)
    (input : List UInt8) : Machine.ofImage image {} input = .ok (loaded image input) := by
  have hfit : ¬ ({} : Runtime).memorySize.toInt32 < image.size := by
    rw [Int32.lt_iff_toInt_lt, h.size]
    show ¬ (65536 : Int) < _
    omega
  unfold Machine.ofImage
  rw [if_neg hfit]
  rfl

theorem size_loaded (image : Image) (input : List UInt8) :
    (loaded image input).memory.size = 65536 := rfl

theorem word_loaded (h : Assembled f s image) (input : List UInt8) (x : Int) :
    (loaded image input).memory.word x = 0 := by
  have hbyte : ∀ y, (loaded image input).memory.byte y = 0 := by
    intro y
    show (image.data.take 65536).getD y.toNat 0 = 0
    rw [Array.getD_eq_getD_getElem?]
    cases hget : (image.data.take 65536)[y.toNat]? with
    | none => rfl
    | some b =>
      have hmem := Array.mem_of_getElem? hget
      rw [Array.take_eq_extract] at hmem
      obtain ⟨k, -, rfl⟩ := Array.mem_extract_iff_getElem.1 hmem
      exact h.blank.zero _ (Array.getElem_mem _)
  simp only [Memory.word, hbyte]
  rfl

/-! ### The parts of the program -/

structure Parts (f : Function) (s : Scope) (site : Site) : Prop where
  start : site.HoldsItem 0 (.named .addi stack zero "topaddr")
  body : site.Holds 4 (stmtsCode (frameSlots s) exitName [] 0 1 f.body)
  exit : site.names.address? exitName
    = some (Int32.ofNat (4 + size (stmtsCode (frameSlots s) exitName [] 0 1 f.body)))
  nop : site.HoldsItem (4 + size (stmtsCode (frameSlots s) exitName [] 0 1 f.body)) (.bare .nop)
  stop : site.HoldsItem (8 + size (stmtsCode (frameSlots s) exitName [] 0 1 f.body)) (.bare .hlt)
  buffer : site.names.address? "buf"
    = some (Int32.ofNat (12 + size (stmtsCode (frameSlots s) exitName [] 0 1 f.body)))

theorem size_programCode (f : Function) (s : Scope) :
    size (programCode f s) = 32 + size (stmtsCode (frameSlots s) exitName [] 0 1 f.body) := by
  rw [programCode_eq, afterEntry, functionCode]
  simp only [size_append, size_cons, size_nil, note, plain, mark, List.map, Line.size,
    Item.size_named, Item.size_bare]
  rw [show Item.entry.size = 0 from rfl, show (Item.reserve 20).size = 20 from rfl]
  omega

theorem parts_of_holds {site : Site} (h : site.Holds 0 (programCode f s)) : Parts f s site := by
  rw [programCode_eq, afterEntry, functionCode] at h
  generalize hc : stmtsCode (frameSlots s) exitName [] 0 1 f.body = c at h
  simp only [Site.holds_append, Site.holds_comment, Site.holds_blank, Site.holds_plain,
    Site.holds_labeled, Site.holds_nil, note, plain, mark, List.map, size_append, size_cons,
    size_nil, Line.size, Item.size_named, Item.size_bare, and_true,
    show Item.entry.size = 0 from rfl, Nat.zero_add, Nat.add_zero] at h
  obtain ⟨-, -, ⟨⟨h1, ⟨-, h2⟩, h3, h4⟩, h5⟩, h6, -⟩ := h
  have hstop : 4 + (size c + 4) = 8 + size c := by omega
  have hbuffer : 4 + (size c + 4) + 4 = 12 + size c := by omega
  rw [hstop] at h5
  rw [hbuffer] at h6
  subst hc
  exact ⟨h1, h2, h3, h4, h5, h6⟩

/-! ### The run -/

/-- The machine gets to a halt with the given output. -/
def Halts (m : Machine) (output : Array UInt8) : Prop :=
  ∃ m', Exec m m' ∧ m'.halted = true ∧ m'.output = output

/-- The machine comes to the end that an outcome says. -/
def Concludes (m : Machine) : Outcome → Prop
  | .next st => Halts m st.output
  | .returned st => Halts m st.output
  | .divided st => Traps m st.output

section
variable (hf : Framed s) (h : Assembled f s image) (hframe : 4 * s.entries.length ≤ 32768)
  (hfit : size (programCode f s) + 4 * s.entries.length + 16 ≤ 65536)
include hf h hframe hfit

/-- The surroundings of the body: the frame is at the top of the memory, the buffer at the end of
the image. -/
theorem housed_program : Housed ⟨image, {}, programNames f s⟩ (frameSlots s) 65532
    (12 + size (stmtsCode (frameSlots s) exitName [] 0 1 f.body) : Nat) := by
  have hparts := parts_of_holds h.holds
  have hsize := size_programCode f s
  have hslots := toInt_frameSize hframe
  refine ⟨rfl, address?_intstr f s, address?_putstr f s, address?_getstr f s, address?_strint f s,
    ?_, hf.apart hframe, ?_, ?_, ?_⟩
  · rw [Int32.ofInt_eq_ofNat]
    exact hparts.buffer
  · rw [hslots]
    omega
  · omega
  · rw [hslots]
    omega

omit hf in
theorem exec_start (input : List UInt8) : ∃ m, Exec (loaded image input) m
    ∧ m.On ⟨image, {}, programNames f s⟩ 4 ∧ Mirrors (frameSlots s) 65532 (start input) m := by
  have hparts := parts_of_holds h.holds
  have hslots := toInt_frameSize hframe
  have hon : (loaded image input).On ⟨image, {}, programNames f s⟩ 0 := ⟨rfl, rfl, rfl, h.entry⟩
  have hzero : (loaded image input).get zero = 0 := rfl
  have hexec := hon.exec_named hparts.start (address?_topaddr f s)
  rw [hzero, Int32.zero_add] at hexec
  refine ⟨_, hexec, hon.put stack 65532 4, ⟨?_, ?_, ?_, ?_⟩, ?_, ?_⟩
  · rw [get_put_of_ne (by decide)]
    exact hzero
  · exact get_put_self (by decide)
  · rw [memory_put]
    refine ⟨by omega, ?_, ?_⟩
    · rw [size_loaded]
      omega
    · rw [size_loaded]
      decide
  · intro n o _
    rw [memory_put, word_loaded h]
    rfl
  · rw [input_put]
    rfl
  · rw [output_put]
    rfl

omit hf hframe hfit in
theorem exec_stop {m : Machine} (hon : m.On ⟨image, {}, programNames f s⟩
      (4 + size (stmtsCode (frameSlots s) exitName [] 0 1 f.body))) :
    Halts m m.output := by
  have hparts := parts_of_holds h.holds
  have h1 := hon.exec_nop hparts.nop
  have hon' := hon.goto (4 + size (stmtsCode (frameSlots s) exitName [] 0 1 f.body) + 4)
  have hstop : 4 + size (stmtsCode (frameSlots s) exitName [] 0 1 f.body) + 4
      = 8 + size (stmtsCode (frameSlots s) exitName [] 0 1 f.body) := by omega
  rw [hstop] at h1 hon'
  exact ⟨_, h1.trans (hon'.exec_hlt hparts.stop), rfl, rfl⟩

/-- A run of the whole body comes to the end that its outcome says. -/
theorem concludes_body (hcov : CoveredStmts (frameSlots s) [] 0 f.body) (hst : AreStmts f.body)
    (input : List UInt8) {bound : Nat} {o : Outcome}
    (ho : execAll bound f.body (start input) = some o) : Concludes (loaded image input) o := by
  have hparts := parts_of_holds h.holds
  obtain ⟨m, hexec, hon, hm⟩ := exec_start h hframe hfit input
  have hsim := (simulates (housed_program hf h hframe hfit) hparts.exit bound).2
    f.body [] 0 1 4 m (start input) o hst hcov hparts.body hm hon ho
  have hend : ∀ st m', Exec m m' → m'.On ⟨image, {}, programNames f s⟩
      (4 + size (stmtsCode (frameSlots s) exitName [] 0 1 f.body)) →
      Mirrors (frameSlots s) 65532 st m' → Halts (loaded image input) st.output := by
    intro st m' he hon' hm'
    obtain ⟨m'', hs, hh, hout⟩ := exec_stop h hon'
    exact ⟨m'', (hexec.trans he).trans hs, hh, hout.trans hm'.output⟩
  cases o with
  | next st =>
    obtain ⟨m', he, hon', hm'⟩ := hsim
    exact hend st m' he hon' hm'
  | returned st =>
    obtain ⟨m', he, hon', hm'⟩ := hsim
    exact hend st m' he hon' hm'
  | divided st => exact Traps.after hexec hsim

end

end

/-! ### The whole way -/

/-- A compiled integer program: its only frame is one of words, one for each variable and each
operator, and its code is that of its function. -/
theorem of_compile {p : Program} {f : Function} {c : Compiled} (hp : IsProgram p f)
    (hc : (compile {} p).1 = .ok c) :
    ∃ t s frame, Ground f t s ∧ LaidOut f t s c.layout frame ∧ c.code = programCode f frame := by
  obtain ⟨t, log, hb, hr, he⟩ := compile_eq_ok.1 hc
  obtain ⟨s, hg⟩ := ground_of_build hp hb
  obtain ⟨frame, hl⟩ := laidOut_of_resolve hg hr
  have hrun := run_laidOut hp hg hl
  rw [he] at hrun
  exact ⟨t, s, frame, hg, hl, Except.ok.inj hrun⟩

theorem length_frame {p : Program} {f : Function} {t : Table} {s frame : Scope} {l : Layout}
    (hp : IsProgram p f) (hg : Ground f t s) (hl : LaidOut f t s l frame) :
    frame.entries.length = f.params.length + (Scope.localsOfAll [] 0 f.body).length
      + (stmtsPaths [] 0 f.body).length := by
  have hdemands := (demands_ground hp hg).length_eq
  have hlen := hl.later.entries.length_eq
  rw [withTemporaries, List.length_append, List.length_map, hg.scope.entries, List.length_append,
    List.length_map] at hlen
  omega

theorem exists_compiled {p : Program} {f : Function} {t : Table} (hp : IsProgram p f)
    (hb : Table.build p = .ok t) (hc : (Layout.ofTable t.withoutFunctions {}).resolve.1 = .ok ()) :
    ∃ c, (compile {} p).1 = .ok c := by
  obtain ⟨s, hg⟩ := ground_of_build hp hb
  obtain ⟨l, hr⟩ := exists_layout hp hg hc
  obtain ⟨frame, hl⟩ := laidOut_of_resolve hg hr
  have hrun := run_laidOut hp hg hl
  rcases he : Emit.run {} l with ⟨r, log⟩
  rw [he] at hrun
  obtain rfl : r = .ok (programCode f frame) := hrun
  exact ⟨⟨programCode f frame, l⟩, compile_eq_ok.2 ⟨t, log, hb, hr, he⟩⟩

/-- What the runs of a text on some input have to do with the meaning of a function: the machine
that the text is loaded into halts with the output of the function, and the command that runs the
text reports just that, if it is not cut short by the limit of steps; where the function divides by
zero, the machine traps. -/
structure RunsAs (f : Function) (text : String) (input : List UInt8) (m : Machine) : Prop where
  ends : ∀ output, Ends f input output →
    ∃ m', Steps m m' ∧ m'.halted = true ∧ m'.output = output
      ∧ (m'.steps ≤ ({} : Runtime).maxSteps.toInt →
        (runAssembly {} text input).error = none ∧ (runAssembly {} text input).output = output)
  divides : ∀ output, Divides f input output →
    ∃ m' m'', Steps m m' ∧ m'.step = (some (.divide m'.pc), m'') ∧ m''.output = output
      ∧ (m''.steps ≤ ({} : Runtime).maxSteps.toInt →
        (runAssembly {} text input).error = some (.trap (.divide m'.pc))
          ∧ (runAssembly {} text input).output = output)

theorem runAssembly_eq {text : String} {image : Image} {input : List UInt8} {m : Machine}
    (ha : assembleFor {} text = .ok image) (hm : Machine.ofImage image {} input = .ok m) :
    runAssembly {} text input = ⟨m.run.1.map .trap, m.run.2.output, runLog m.run⟩ := by
  unfold runAssembly
  rw [ha]
  simp only
  rw [hm]

theorem runsAs_of_run {f : Function} {text : String} {image : Image} {input : List UInt8}
    (ha : assembleFor {} text = .ok image)
    (hm : Machine.ofImage image {} input = .ok (loaded image input))
    (hrun : ∀ bound o, execAll bound f.body (start input) = some o →
      Concludes (loaded image input) o) :
    RunsAs f text input (loaded image input) := by
  have hout := runAssembly_eq ha hm
  have hallow : (loaded image input).allowance = 5000000 := rfl
  constructor
  · rintro output ⟨bound, st, rfl, hend⟩
    have hhalt : Halts (loaded image input) st.output := by
      rcases hend with hend | hend
      · exact hrun bound _ hend
      · exact hrun bound _ hend
    obtain ⟨m, hexec, hh, ho⟩ := hhalt
    obtain ⟨k, hsteps⟩ := hexec.steps
    refine ⟨m.withSteps k, hsteps, hh, ho, fun hk => ?_⟩
    have hk' : (k : Int) ≤ 5000000 := hk
    have hr := run_of_steps hsteps hh (by rw [hallow]; show k - 0 ≤ 5000000; omega)
    rw [hout, hr]
    exact ⟨rfl, ho⟩
  · rintro output ⟨bound, st, rfl, hend⟩
    obtain ⟨m, i, hexec, hfetch, heff, ho⟩ := hrun bound _ hend
    obtain ⟨k, hsteps⟩ := hexec.steps
    have hstep : (m.withSteps k).step = (some (.divide m.pc), m.withSteps (k + 1)) := by
      rw [step_of_fetches hfetch, heff]
    refine ⟨m.withSteps k, m.withSteps (k + 1), hsteps, hstep, ho, fun hk => ?_⟩
    have hk' : ((k + 1 : Nat) : Int) ≤ 5000000 := hk
    have hr := run_of_trap hsteps hfetch.running hstep
      (by rw [hallow]; show k - 0 < 5000000; omega)
    rw [hout, hr]
    exact ⟨rfl, ho⟩

/-- An integer program whose classes can be laid out compiles. If its frame is small and fits into
the memory together with its image, then its text assembles and runs, on every input, as the program
means. -/
theorem compiled_runs {p : Program} {f : Function} {t : Table} (hp : IsProgram p f)
    (hb : Table.build p = .ok t) (hc : (Layout.ofTable t.withoutFunctions {}).resolve.1 = .ok ()) :
    ∃ c frame, (compile {} p).1 = .ok c ∧ c.layout.table.functions = [frame]
      ∧ (frameBytes frame ≤ 32768 →
        (size c.code : Int) + frameBytes frame + 16 ≤ ({} : Runtime).memorySize.toInt →
        ∃ image, assembleFor {} c.assembly = .ok image ∧ image.size.toInt = size c.code
          ∧ ∀ input, ∃ m, Machine.ofImage image {} input = .ok m
            ∧ RunsAs f c.assembly input m) := by
  obtain ⟨c, hcomp⟩ := exists_compiled hp hb hc
  obtain ⟨t', s, frame, hg, hl, hcode⟩ := of_compile hp hcomp
  have hf := framed_of_laidOut hp hg hl
  refine ⟨c, frame, hcomp, hl.functions, fun hframe hfit => ?_⟩
  rw [hf.frameBytes] at hframe hfit
  have hfit' : (size c.code : Int) + 4 * frame.entries.length + 16 ≤ 65536 := hfit
  rw [hcode] at hfit'
  obtain ⟨image, himage⟩ := exists_assembled hp hg hl (by omega) (by omega)
  have hassemble : assembleFor {} c.assembly = .ok image := by
    have htext : c.assembly = text (programCode f frame) := by
      rw [Compiled.assembly, hcode]
    unfold assembleFor
    rw [htext]
    show Except.mapError _ (assemble _ ({} : Runtime).symbols) = _
    rw [himage.assemble]
    rfl
  refine ⟨image, hassemble, by rw [hcode]; exact himage.size, fun input => ?_⟩
  have hload := ofImage_eq himage (by omega) input
  refine ⟨loaded image input, hload, runsAs_of_run hassemble hload fun bound o ho => ?_⟩
  exact concludes_body hf himage (by omega) (by omega) (covered_of_laidOut hp hg hl) hp.body input ho

theorem resolve_of_no_classes {p : Program} {t : Table} (hb : Table.build p = .ok t)
    (hp : p.classes = []) : (Layout.ofTable t.withoutFunctions {}).resolve.1 = .ok () := by
  obtain ⟨t₀, hs, -, ht⟩ := Table.of_build hb
  have h : t.classes = [] := by
    have hcount := hs.classCount
    rw [hp] at hcount
    rw [ht]
    exact List.length_eq_zero_iff.1 hcount
  have hids : Layout.sizedScopes t.withoutFunctions = [] := by
    simp [Layout.sizedScopes, Table.withoutFunctions, h]
  have hrange : List.range t.withoutFunctions.classes.length = [] := by
    simp [Table.withoutFunctions, h]
  have hr := (Layout.resolve_eq_ok (t := t.withoutFunctions) (c := {})).2
    ⟨_, _, _, _, rfl, by rw [hids]; exact Layout.sizeAll_nil _, by rw [hrange]; rfl, rfl, rfl⟩
  rw [hr]

theorem exists_of_isOk {ε α : Type} {x : Except ε α} (h : x.isOk = true) : ∃ a, x = .ok a := by
  cases x with
  | error e => cases h
  | ok a => exact ⟨a, rfl⟩

def countdown : Function where
  name := "main"
  className := ""
  isConstructor := false
  params := []
  returns := .void
  body := [.declare ⟨"x", .integer⟩ .missing, .read (.var "x" .void),
    .loop (.binary .gt (.var "x" .void) (.int 0) .void)
      [.write (.var "x" .void),
        .assign (.var "x" .void) (.binary .sub (.var "x" .void) (.int 1) .void)]]

theorem isProgram_countdown : IsProgram ⟨[], [countdown]⟩ countdown := by
  refine ⟨rfl, rfl, rfl, rfl, nofun, ?_⟩
  simp only [countdown, AreStmts, IsStmt, IsTarget, IsExpr, and_true, true_and, true_or]
  exact ⟨⟨rfl, by decide, by decide⟩, by decide, by decide⟩

/-- Counting down from two. -/
theorem compiled_runs_countdown : ∃ c image m m', (compile {} ⟨[], [countdown]⟩).1 = .ok c
    ∧ assembleFor {} c.assembly = .ok image ∧ Machine.ofImage image {} [50, 10] = .ok m
    ∧ Steps m m' ∧ m'.halted = true ∧ m'.output = #[50, 10, 49, 10] := by
  obtain ⟨t, hb⟩ := exists_of_isOk (x := Table.build ⟨[], [countdown]⟩) (by cbv)
  obtain ⟨c, frame, hcomp, hfun, hrest⟩ := compiled_runs isProgram_countdown hb
    (resolve_of_no_classes hb rfl)
  obtain ⟨t', s, frame', hg, hl, hcode⟩ := of_compile isProgram_countdown hcomp
  obtain rfl : frame' = frame := List.cons.inj (hl.functions.symm.trans hfun) |>.1
  have hlen := length_frame isProgram_countdown hg hl
  have hbytes := (framed_of_laidOut isProgram_countdown hg hl).frameBytes
  have hthree : frame'.entries.length = 3 := hlen
  rw [hthree] at hbytes
  have hsize : size c.code = 172 := by
    rw [hcode, size_programCode]
    simp [countdown, stmtsCode, stmtCode, testCode, exprCode, loadCode, storeCode, place, readCode,
      printCode, newlineCode, constantCode, note, plain, mark, Line.size, Emit.integerOperation,
      Expr.isMissing]
  obtain ⟨image, himage, -, hruns⟩ := hrest (by omega) (by rw [hsize, hbytes]; decide)
  obtain ⟨m, hm, has⟩ := hruns [50, 10]
  obtain ⟨m', hsteps, hhalt, hout, -⟩ := has.ends #[50, 10, 49, 10]
    (ends_of_outputWithin (show outputWithin 10 countdown [50, 10] = _ by decide +kernel))
  exact ⟨c, image, m, m', hcomp, himage, hm, hsteps, hhalt, hout⟩

/-- Prints a number. -/
def printSeven : Function where
  name := "main"
  className := ""
  isConstructor := false
  params := []
  returns := .void
  body := [.write (.int 7)]

/-- The same with a class that contains itself, which has no size. -/
def withEndlessClass : Program := ⟨[⟨"P", [], [⟨"q", .object "P"⟩]⟩], [printSeven]⟩

/-- A class that nothing uses can stand in the way of a compilation. -/
theorem endlessClass_not_compiled : IsProgram withEndlessClass printSeven
    ∧ (∃ t, Table.build withEndlessClass = .ok t)
    ∧ ∀ c, (compile {} withEndlessClass).1 ≠ .ok c := by
  refine ⟨⟨rfl, rfl, rfl, rfl, nofun, ⟨?_, trivial⟩⟩, exists_of_isOk (by cbv), ?_⟩
  · exact ⟨by decide, by decide⟩
  · intro c hc
    have hfail : (compile {} withEndlessClass).1.isOk = false := by cbv
    rw [hc] at hfail
    cases hfail

end MoonBackend.Integer
