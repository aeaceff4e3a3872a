import MoonBackend.Proofs.Code.Execution

/-!
# Machines that differ in their registers

A `Renaming` says which register of one machine plays the part of which register of another. When the
programs of two machines are the same up to a renaming that leaves the registers of the library where
they are, each step of the one is a step of the other: the same trap or the same effect on memory,
input and output. So whole runs end alike.
-/

namespace MoonBackend

@[simp] def Opcode.sets : Opcode → Bool
  | .nop | .hlt | .sw | .sb | .putc | .bz | .bnz | .j | .jr | .undefined _ => false
  | _ => true

@[simp] def Opcode.isDefined : Opcode → Bool
  | .undefined _ => false
  | _ => true

/-- A one-to-one correspondence between registers of two machines. Register 0 has no part in it, and
the registers that the library uses stand for themselves. -/
structure Renaming where
  pairs : UInt8 → UInt8 → Prop
  unique_right : ∀ {r s s'}, pairs r s → pairs r s' → s = s'
  unique_left : ∀ {r r' s}, pairs r s → pairs r' s → r = r'
  range : ∀ {r s}, pairs r s → (r < 16 ∧ r ≠ 0) ∧ (s < 16 ∧ s ≠ 0)
  result : pairs 13 13
  stackPointer : pairs 14 14
  link : pairs 15 15

namespace Renaming

variable (f : Renaming)

def IdleLeft (r : UInt8) : Prop := r < 16 ∧ ∀ s, ¬ f.pairs r s

def IdleRight (s : UInt8) : Prop := s < 16 ∧ ∀ r, ¬ f.pairs r s

/-- The registers hold the same: they correspond, or neither is ever written. -/
def Stands (r s : UInt8) : Prop := f.pairs r s ∨ f.IdleLeft r ∧ f.IdleRight s

theorem stands_zero : f.Stands 0 0 :=
  .inr ⟨⟨by decide, fun _ h => (f.range h).1.2 rfl⟩, ⟨by decide, fun _ h => (f.range h).2.2 rfl⟩⟩

theorem Stands.lt {f : Renaming} {r s : UInt8} (h : f.Stands r s) : r < 16 ∧ s < 16 := by
  rcases h with h | ⟨hr, hs⟩
  · exact ⟨(f.range h).1.1, (f.range h).2.1⟩
  · exact ⟨hr.1, hs.1⟩

/-- A register that stands for another is the written one exactly if the other is. -/
theorem Stands.eq_iff {f : Renaming} {r s x y : UInt8} (h : f.Stands r s) (hxy : f.pairs x y) :
    r = x ↔ s = y := by
  rcases h with h | ⟨hr, hs⟩
  · exact ⟨fun he => f.unique_right h (he ▸ hxy), fun he => f.unique_left h (he ▸ hxy)⟩
  · exact ⟨fun he => absurd (he ▸ hxy) (hr.2 y), fun he => absurd (he ▸ hxy) (hs.2 x)⟩

end Renaming

variable {f : Renaming}

/-! ### Instructions and their effects -/

/-- The instructions differ in nothing but their registers, which stand for each other. -/
structure MachineInstruction.Renamed (f : Renaming) (i j : MachineInstruction) : Prop where
  op : i.op = j.op
  k : i.k = j.k
  sets : i.op.sets = true → f.pairs i.ri j.ri
  ri : f.Stands i.ri j.ri
  rj : f.Stands i.rj j.rj
  rk : f.Stands i.rk j.rk

def Effect.target? : Effect → Option UInt8
  | .write r _ | .readByte r | .link r _ => some r
  | _ => none

inductive Effect.Renamed (f : Renaming) : Effect → Effect → Prop
  | same {e : Effect} : e.target? = none → Renamed f e e
  | write {r s : UInt8} (v : Int32) : f.pairs r s → Renamed f (.write r v) (.write s v)
  | readByte {r s : UInt8} : f.pairs r s → Renamed f (.readByte r) (.readByte s)
  | link {r s : UInt8} (target : Int32) : f.pairs r s → Renamed f (.link r target) (.link s target)

inductive Effect.Ends (f : Renaming) : Except Trap Effect → Except Trap Effect → Prop
  | ok {e e' : Effect} : e.Renamed f e' → Ends f (.ok e) (.ok e')
  | error (t : Trap) : Ends f (.error t) (.error t)

namespace Machine

theorem reg?_of_lt {m : Machine} {r : UInt8} (h : r < 16) : ∃ v, m.reg? r = some v := by
  have hlt : r.toNat < 16 := h
  exact ⟨m.regs[r.toNat], by simp [reg?, hlt]⟩

theorem setReg_of_ne {m : Machine} {x : UInt8} (hx : x ≠ 0) (v : Int32) :
    m.setReg x v = { m with regs := m.regs.setIfInBounds x.toNat v } := by
  rw [setReg, if_neg (by simpa using hx)]

theorem reg?_stackPointer (m : Machine) : m.reg? 14 = some (m.regs.get stackPointer) := by
  simp [reg?]
  rfl

theorem reg?_link (m : Machine) : m.reg? 15 = some (m.regs.get linkRegister) := by
  simp [reg?]
  rfl

theorem setResult_eq (m : Machine) (v : Int32) : m.setResult v = m.setReg 13 v := by
  have hregs : m.regs.setIfInBounds 13 v = m.regs.set resultRegister v :=
    Vector.ext fun i hi => by
      rw [Vector.getElem_setIfInBounds, Vector.getElem_set]
      rfl
  rw [setReg_of_ne (by decide), setResult, ← hregs]
  rfl

/-- The machines differ in nothing but their registers and their programs: registers that stand for
each other hold the same, and the programs have renamed instructions at the same addresses. -/
structure Renamed (f : Renaming) (m n : Machine) : Prop where
  rest : { m with regs := n.regs, image := n.image } = n
  code : ∀ addr : Int32,
    Option.Rel (MachineInstruction.Renamed f) m.image.code[addr]? n.image.code[addr]?
  regs : ∀ {r s}, f.Stands r s → m.reg? r = n.reg? s

/-- Both runs end with the same trap or with none, in machines that are renamed. -/
structure EndsRenamed (f : Renaming) (x y : Option Trap × Machine) : Prop where
  trap : x.1 = y.1
  machine : x.2.Renamed f y.2

namespace Renamed

variable {m n : Machine} {r s : UInt8} {v : Int32}

theorem congr {m' n' : Machine} (h : m.Renamed f n) (hm : { m' with regs := n.regs, image := n.image } = n')
    (hr : m'.regs = m.regs) (hi : m'.image = m.image) : m'.Renamed f n' := by
  subst hm
  refine ⟨rfl, fun addr => ?_, fun hrs => ?_⟩
  · rw [hi]
    exact h.code addr
  · have := h.regs hrs
    simpa only [reg?, hr] using this

theorem setReg (h : m.Renamed f n) (hp : f.pairs r s) (v : Int32) :
    (m.setReg r v).Renamed f (n.setReg s v) := by
  obtain ⟨⟨hr, hr0⟩, hs, hs0⟩ := f.range hp
  refine ⟨?_, ?_, fun hxy => ?_⟩
  · rw [← h.rest]
    simp only [setReg_of_ne hr0, setReg_of_ne hs0]
  · simpa only [setReg_of_ne hr0, setReg_of_ne hs0] using h.code
  · rw [reg?_setReg _ _ _ _ hr0 hr, reg?_setReg _ _ _ _ hs0 hs, h.regs hxy]
    exact if_congr (by rw [eq_comm, hxy.eq_iff hp, eq_comm]) rfl rfl

theorem stackPointer (h : m.Renamed f n) :
    m.regs.get Machine.stackPointer = n.regs.get Machine.stackPointer := by
  have hreg := h.regs (.inl f.stackPointer)
  rw [reg?_stackPointer, reg?_stackPointer] at hreg
  exact Option.some.inj hreg

theorem link (h : m.Renamed f n) : m.regs.get linkRegister = n.regs.get linkRegister := by
  have hreg := h.regs (.inl f.link)
  rw [reg?_link, reg?_link] at hreg
  exact Option.some.inj hreg

/-! ### Effects -/

theorem effectOn (h : m.Renamed f n) {i j : MachineInstruction} (hij : i.Renamed f j) (ri rj rk : Int32) :
    Effect.Ends f (m.effectOn i ri rj rk) (n.effectOn j ri rj rk) := by
  obtain ⟨op, iri, irj, irk, k⟩ := i
  obtain ⟨op', jri, jrj, jrk, k'⟩ := j
  obtain ⟨hop, hk, hsets, -, -, -⟩ := hij
  dsimp only at hop hk hsets
  subst hop hk
  rw [← h.rest]
  cases op
  case lw =>
    have hp := hsets rfl
    show Effect.Ends f ((m.loadWord _).map _) ((m.loadWord _).map _)
    cases m.loadWord (rj + k) with
    | error t => exact .error t
    | ok v => exact .ok (.write v hp)
  case lb =>
    have hp := hsets rfl
    show Effect.Ends f ((m.loadByte _).map _) ((m.loadByte _).map _)
    cases m.loadByte (rj + k) with
    | error t => exact .error t
    | ok v => exact .ok (.write _ hp)
  case sw =>
    show Effect.Ends f ((m.check _ _).map _) ((m.check _ _).map _)
    cases m.check (rj + k) 4 with
    | error t => exact .error t
    | ok v => exact .ok (.same rfl)
  case sb =>
    show Effect.Ends f ((m.check _ _).map _) ((m.check _ _).map _)
    cases m.check (rj + k) 1 with
    | error t => exact .error t
    | ok v => exact .ok (.same rfl)
  case div | mod | divi | modi =>
    have hp := hsets rfl
    simp only [Machine.effectOn, quotient, remainder]
    split
    · exact .error _
    · exact .ok (.write _ hp)
  case bz | bnz =>
    simp only [Machine.effectOn]
    split
    · exact .ok (.same rfl)
    · exact .ok (.same rfl)
  case getc => exact .ok (.readByte (hsets rfl))
  case jl | jlr => exact .ok (.link _ (hsets rfl))
  case undefined => exact .error _
  case nop | hlt | putc | j | jr => exact .ok (.same rfl)
  all_goals exact .ok (.write _ (hsets rfl))

theorem effect (h : m.Renamed f n) {i j : MachineInstruction} (hij : i.Renamed f j) :
    Effect.Ends f (m.effect i) (n.effect j) := by
  obtain ⟨ri, hri⟩ := reg?_of_lt (m := m) hij.ri.lt.1
  obtain ⟨rj, hrj⟩ := reg?_of_lt (m := m) hij.rj.lt.1
  obtain ⟨rk, hrk⟩ := reg?_of_lt (m := m) hij.rk.lt.1
  unfold Machine.effect
  rw [← h.regs hij.ri, ← h.regs hij.rj, ← h.regs hij.rk, hri, hrj, hrk]
  exact h.effectOn hij ri rj rk

theorem goto (h : m.Renamed f n) (pc : Int32) : (m.goto pc).Renamed f (n.goto pc) :=
  h.congr (by rw [Machine.goto, Machine.goto, ← h.rest]) rfl rfl

theorem proceed (h : m.Renamed f n) : m.proceed.Renamed f n.proceed :=
  h.congr (by rw [Machine.proceed, Machine.proceed, ← h.rest]) rfl rfl

theorem withMemory (h : m.Renamed f n) (memory : Memory) :
    Machine.Renamed f { m with memory := memory } { n with memory := memory } :=
  h.congr (by rw [← h.rest]) rfl rfl

theorem perform (h : m.Renamed f n) {e e' : Effect} (he : e.Renamed f e') :
    (m.perform e).Renamed f (n.perform e') := by
  cases he with
  | same ht =>
    have hmemory : n.memory = m.memory := by rw [← h.rest]
    cases e with
    | write | readByte | link => cases ht
    | proceed => exact h.proceed
    | halt =>
      have hhalt : Machine.Renamed f { m with halted := true } { n with halted := true } :=
        h.congr (by rw [← h.rest]) rfl rfl
      exact hhalt.proceed
    | storeWord addr v =>
      simp only [Machine.perform, putWord, hmemory]
      exact (h.withMemory _).proceed
    | storeByte addr v =>
      simp only [Machine.perform, putByte, hmemory]
      exact (h.withMemory _).proceed
    | print b =>
      have hprint : Machine.Renamed f
          { m with output := m.output ++ Text.charBytes (Char.ofNat b.toNat) }
          { n with output := n.output ++ Text.charBytes (Char.ofNat b.toNat) } :=
        h.congr (by rw [← h.rest]) rfl rfl
      exact hprint.proceed
    | goto target => exact h.goto target
  | write v hp => exact (h.setReg hp v).proceed
  | readByte hp =>
    have hinput : n.input = m.input := by rw [← h.rest]
    simp only [Machine.perform, hinput]
    split
    · exact (h.setReg hp 0).proceed
    · rename_i b rest _
      have hread : Machine.Renamed f { m with input := rest } { n with input := rest } :=
        h.congr (by rw [← h.rest]) rfl rfl
      exact (hread.setReg hp _).proceed
  | link target hp =>
    have hpc : n.pc = m.pc := by rw [← h.rest]
    simp only [Machine.perform, hpc]
    exact (h.setReg hp _).goto target

/-! ### The library -/

theorem param (h : m.Renamed f n) (off : Int64) : n.param off = m.param off := by
  rw [Machine.param, Machine.param, h.stackPointer, ← h.rest]
  rfl

theorem getText (h : m.Renamed f n) (addr : Int32) : n.getText addr = m.getText addr := by
  rw [← h.rest]
  rfl

theorem setResult (h : m.Renamed f n) (v : Int32) : (m.setResult v).Renamed f (n.setResult v) := by
  rw [setResult_eq, setResult_eq]
  exact h.setReg f.result v

theorem putText (h : m.Renamed f n) (addr : Int32) (text : List UInt8) :
    EndsRenamed f (m.putText addr text) (n.putText addr text) := by
  rw [putText_eq, putText_eq]
  refine ⟨by rw [← h.rest]; rfl, h.congr ?_ rfl rfl⟩
  rw [← h.rest]

theorem runtime (h : m.Renamed f n) : n.runtime = m.runtime := by rw [← h.rest]

theorem intToString (h : m.Renamed f n) : EndsRenamed f m.intToString n.intToString := by
  unfold Machine.intToString
  rw [h.param, h.param, h.runtime]
  cases m.param m.runtime.valueParam with
  | error t => exact ⟨rfl, h⟩
  | ok v =>
    cases m.param m.runtime.bufferParam with
    | error t => exact ⟨rfl, h⟩
    | ok buffer =>
      have hput := h.putText buffer (Text.textBytes (Text.decimal v.toInt))
      simp only
      generalize m.putText buffer _ = x, n.putText buffer _ = y at hput ⊢
      obtain ⟨t, m'⟩ := x
      obtain ⟨t', n'⟩ := y
      obtain ⟨rfl, hm⟩ : t = t' ∧ m'.Renamed f n' := ⟨hput.trap, hput.machine⟩
      cases t with
      | none => exact ⟨rfl, hm.setResult buffer⟩
      | some t => exact ⟨rfl, hm⟩

theorem printString (h : m.Renamed f n) : EndsRenamed f m.printString n.printString := by
  unfold Machine.printString
  rw [h.param, h.runtime]
  cases m.param m.runtime.valueParam with
  | error t => exact ⟨rfl, h⟩
  | ok addr =>
    simp only
    rw [h.getText]
    cases m.getText addr with
    | error t => exact ⟨rfl, h⟩
    | ok text => exact ⟨rfl, h.congr (by rw [← h.rest]) rfl rfl⟩

theorem readString (h : m.Renamed f n) : EndsRenamed f m.readString n.readString := by
  have hinput : n.input = m.input := by rw [← h.rest]
  unfold Machine.readString
  rw [h.param, h.runtime, hinput]
  cases m.param m.runtime.valueParam with
  | error t => exact ⟨rfl, h⟩
  | ok addr =>
    rcases splitLine m.input with ⟨line, rest⟩
    have hread : Machine.Renamed f { m with input := rest }
        { n with input := rest, runtime := m.runtime } := h.congr (by rw [← h.rest]) rfl rfl
    simp only
    split
    · exact ⟨rfl, hread⟩
    · exact hread.putText addr _

theorem stringToInt (h : m.Renamed f n) : EndsRenamed f m.stringToInt n.stringToInt := by
  unfold Machine.stringToInt
  rw [h.param, h.runtime]
  cases m.param m.runtime.valueParam with
  | error t => exact ⟨rfl, h⟩
  | ok addr =>
    simp only
    rw [h.getText]
    cases m.getText addr with
    | error t => exact ⟨rfl, h⟩
    | ok text => exact ⟨rfl, h.setResult _⟩

theorem call (h : m.Renamed f n) (r : Routine) : EndsRenamed f (m.call r) (n.call r) := by
  cases r with
  | intToString => exact h.intToString
  | printString => exact h.printString
  | readString => exact h.readString
  | stringToInt => exact h.stringToInt

/-! ### Runs -/

/-- One step of a machine is one step of the other. -/
theorem step (h : m.Renamed f n) : EndsRenamed f m.step n.step := by
  have hhalted : n.halted = m.halted := by rw [← h.rest]
  have hsteps : n.steps = m.steps := by rw [← h.rest]
  have hpc : n.pc = m.pc := by rw [← h.rest]
  have hruntime : n.runtime = m.runtime := by rw [← h.rest]
  cases hh : m.halted with
  | true =>
    unfold Machine.step
    rw [hhalted, hh]
    exact ⟨rfl, h⟩
  | false =>
    have hcount : (m.withSteps (m.steps + 1)).Renamed f (n.withSteps (n.steps + 1)) :=
      h.congr (by rw [← h.rest]; rfl) rfl rfl
    rw [step_eq hh, step_eq (hhalted.trans hh), hruntime, hpc]
    cases m.runtime.routine? m.pc with
    | some routine =>
      obtain ⟨htrap, hm⟩ := hcount.call routine
      simp only
      rcases hx : (m.withSteps (m.steps + 1)).call routine with ⟨_ | t, m'⟩ <;>
        rcases hy : (n.withSteps (n.steps + 1)).call routine with ⟨_ | t', n'⟩ <;>
        rw [hx, hy] at htrap hm
      · have hlink : m'.regs.get linkRegister = n'.regs.get linkRegister := hm.link
        simp only
        rw [hlink]
        exact ⟨rfl, hm.goto _⟩
      · cases htrap
      · cases htrap
      · exact ⟨htrap, hm⟩
    | none =>
      have hcode := h.code m.pc
      generalize m.image.code[m.pc]? = x, n.image.code[m.pc]? = y at hcode ⊢
      cases hcode with
      | none => exact ⟨rfl, hcount⟩
      | some hij =>
        have he := hcount.effect hij
        simp only
        generalize (m.withSteps (m.steps + 1)).effect _ = x, (n.withSteps (n.steps + 1)).effect _ = y at he
        cases he with
        | ok he => exact ⟨rfl, hcount.perform he⟩
        | error t => exact ⟨rfl, hcount⟩

theorem runFor (h : m.Renamed f n) (limit : Int64) (fuel : Nat) :
    EndsRenamed f (m.runFor limit fuel) (n.runFor limit fuel) := by
  induction fuel generalizing m n with
  | zero =>
    have hhalted : n.halted = m.halted := by rw [← h.rest]
    unfold Machine.runFor
    rw [hhalted]
    split
    · exact ⟨rfl, h⟩
    · exact ⟨rfl, h⟩
  | succ fuel ih =>
    have hhalted : n.halted = m.halted := by rw [← h.rest]
    unfold Machine.runFor
    rw [hhalted]
    split
    · exact ⟨rfl, h⟩
    · obtain ⟨htrap, hm⟩ := h.step
      rcases hx : m.step with ⟨_ | t, m'⟩ <;> rcases hy : n.step with ⟨_ | t', n'⟩ <;>
        rw [hx, hy] at htrap hm
      · exact ih hm
      · cases htrap
      · cases htrap
      · exact ⟨htrap, hm⟩

/-- Whole runs end with the same trap or with none, after the same output. -/
theorem run (h : m.Renamed f n) : EndsRenamed f m.run n.run := by
  have hsteps : n.steps = m.steps := by rw [← h.rest]
  have hfuel : n.allowance = m.allowance := by
    unfold allowance
    rw [h.runtime, hsteps]
  have hrun := h.runFor m.runtime.maxSteps m.allowance
  unfold Machine.run
  rw [h.runtime, hfuel]
  exact hrun

end Renamed

end Machine

end MoonBackend
