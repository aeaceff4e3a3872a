import MoonBackend.Machine.Step
import Mathlib.Logic.Relation

/-!
# Executions of the machine

`Next` is one step that does not trap, `Steps` any number of them. The count of steps that a machine
carries plays no part in what it does, so `Exec` relates two machines up to that count. A single
instruction and a single library routine give the building blocks, and `run_of_steps` and
`run_of_trap` say what a whole run answers once its steps are known.
-/

namespace MoonBackend.Machine

/-- Registers that are zero except for the stack pointer. -/
def stackAt (a : Int32) : Vector Int32 16 := (Vector.replicate 16 0).set 14 a

def withSteps (m : Machine) (k : Nat) : Machine := { m with steps := k }

@[simp] theorem withSteps_self (m : Machine) : m.withSteps m.steps = m := rfl

@[simp] theorem withSteps_withSteps (m : Machine) (j k : Nat) :
    (m.withSteps j).withSteps k = m.withSteps k := rfl

@[simp] theorem steps_withSteps (m : Machine) (k : Nat) : (m.withSteps k).steps = k := rfl

/-- One step that neither traps nor starts from a halted machine. -/
def Next (m m' : Machine) : Prop := m.halted = false ∧ m.step = (none, m')

def Steps : Machine → Machine → Prop := Relation.ReflTransGen Next

/-- Any number of steps, whatever the counts of steps are. -/
def Exec (m m' : Machine) : Prop := ∀ k, ∃ k', Steps (m.withSteps k) (m'.withSteps k')

namespace Exec

theorem refl (m : Machine) : Exec m m := fun k => ⟨k, .refl⟩

theorem trans {m₁ m₂ m₃ : Machine} (h : Exec m₁ m₂) (h' : Exec m₂ m₃) : Exec m₁ m₃ := by
  intro k
  obtain ⟨k₁, hk₁⟩ := h k
  obtain ⟨k₂, hk₂⟩ := h' k₁
  exact ⟨k₂, hk₁.trans hk₂⟩

theorem steps {m m' : Machine} (h : Exec m m') : ∃ k, Steps m (m'.withSteps k) := h m.steps

end Exec

/-! ### What does not depend on the count of steps -/

theorem effect_withSteps (m : Machine) (k : Nat) (i : MachineInstruction) :
    (m.withSteps k).effect i = m.effect i := rfl

theorem perform_withSteps (m : Machine) (k : Nat) (e : Effect) :
    (m.withSteps k).perform e = (m.perform e).withSteps k := by
  cases e with
  | readByte r =>
    obtain ⟨regs, pc, memory, halted, steps, input, output, image, runtime⟩ := m
    cases input with
    | nil => simp only [perform, setReg, proceed, withSteps]; split <;> rfl
    | cons b rest => simp only [perform, setReg, proceed, withSteps]; split <;> rfl
  | write r v => simp only [perform, setReg, proceed, withSteps]; split <;> rfl
  | link r target => simp only [perform, setReg, goto, withSteps]; split <;> rfl
  | _ => rfl

theorem trapOf_withSteps (m : Machine) (k : Nat) : (m.withSteps k).trapOf = m.trapOf := by
  funext addr e
  cases e with
  | outOfRange => rfl
  | overrun => rfl

theorem param_withSteps (m : Machine) (k : Nat) (off : Int64) :
    (m.withSteps k).param off = m.param off := by
  simp only [param, loadWord, trapOf_withSteps]
  simp only [withSteps]

theorem getText_withSteps (m : Machine) (k : Nat) (addr : Int32) :
    (m.withSteps k).getText addr = m.getText addr := by
  simp only [getText, trapOf_withSteps]
  simp only [withSteps]

theorem putText_eq (m : Machine) (addr : Int32) (text : List UInt8) :
    m.putText addr text =
      ((m.memory.putText addr text).1.map fun (place, e) => m.trapOf place e,
        { m with memory := (m.memory.putText addr text).2 }) := by
  obtain ⟨regs, pc, memory, halted, steps, input, output, image, runtime⟩ := m
  rfl

theorem putText_withSteps (m : Machine) (k : Nat) (addr : Int32) (text : List UInt8) :
    (m.withSteps k).putText addr text =
      ((m.putText addr text).1, (m.putText addr text).2.withSteps k) := by
  simp only [putText_eq, trapOf_withSteps]
  simp only [withSteps]

theorem intToString_withSteps (m : Machine) (k : Nat) :
    (m.withSteps k).intToString = (m.intToString.1, m.intToString.2.withSteps k) := by
  have hr : (m.withSteps k).runtime = m.runtime := rfl
  unfold intToString
  rw [param_withSteps, param_withSteps, hr]
  generalize m.param m.runtime.valueParam = value
  generalize m.param m.runtime.bufferParam = buffer
  cases value with
  | error t => rfl
  | ok v =>
    cases buffer with
    | error t => rfl
    | ok b =>
      simp only [putText_withSteps]
      generalize m.putText b (Text.textBytes (Text.decimal v.toInt)) = written
      obtain ⟨_ | t, m'⟩ := written
      · rfl
      · rfl

theorem printString_withSteps (m : Machine) (k : Nat) :
    (m.withSteps k).printString = (m.printString.1, m.printString.2.withSteps k) := by
  have hr : (m.withSteps k).runtime = m.runtime := rfl
  unfold printString
  rw [param_withSteps, hr]
  generalize m.param m.runtime.valueParam = value
  cases value with
  | error t => rfl
  | ok addr =>
    simp only [getText_withSteps]
    generalize m.getText addr = text
    cases text with
    | error t => rfl
    | ok text => rfl

theorem stringToInt_withSteps (m : Machine) (k : Nat) :
    (m.withSteps k).stringToInt = (m.stringToInt.1, m.stringToInt.2.withSteps k) := by
  have hr : (m.withSteps k).runtime = m.runtime := rfl
  unfold stringToInt
  rw [param_withSteps, hr]
  generalize m.param m.runtime.valueParam = value
  cases value with
  | error t => rfl
  | ok addr =>
    simp only [getText_withSteps]
    generalize m.getText addr = text
    cases text with
    | error t => rfl
    | ok text => rfl

theorem readString_withSteps (m : Machine) (k : Nat) :
    (m.withSteps k).readString = (m.readString.1, m.readString.2.withSteps k) := by
  have hr : (m.withSteps k).runtime = m.runtime := rfl
  have hi : (m.withSteps k).input = m.input := rfl
  unfold readString
  rw [param_withSteps, hr, hi]
  generalize m.param m.runtime.valueParam = value
  cases value with
  | error t => rfl
  | ok addr =>
    generalize splitLine m.input = split
    obtain ⟨line, rest⟩ := split
    have hp := putText_withSteps { m with input := rest } k addr
    by_cases hroom : m.runtime.bufferSize - 1 < 0
    · simp only [hroom, if_true]
      rfl
    · simp only [hroom, if_false]
      exact hp _

theorem call_withSteps (m : Machine) (k : Nat) (r : Routine) :
    (m.withSteps k).call r = ((m.call r).1, (m.call r).2.withSteps k) := by
  cases r with
  | intToString => exact intToString_withSteps m k
  | printString => exact printString_withSteps m k
  | readString => exact readString_withSteps m k
  | stringToInt => exact stringToInt_withSteps m k

theorem step_eq {m : Machine} (hh : m.halted = false) :
    m.step = match m.runtime.routine? m.pc with
      | some routine =>
        match (m.withSteps (m.steps + 1)).call routine with
        | (some t, m) => (some t, m)
        | (none, m) => (none, m.goto (m.regs.get linkRegister))
      | none =>
        match m.image.code[m.pc]? with
        | none => (some (.noInstruction m.pc), m.withSteps (m.steps + 1))
        | some i =>
          match (m.withSteps (m.steps + 1)).effect i with
          | .error t => (some t, m.withSteps (m.steps + 1))
          | .ok e => (none, (m.withSteps (m.steps + 1)).perform e) := by
  have hn : ¬ m.halted = true := by rw [hh]; exact Bool.false_ne_true
  unfold step
  rw [if_neg hn]
  rfl

/-! ### Single steps -/

/-- The machine is about to carry out an instruction. -/
structure Fetches (m : Machine) (i : MachineInstruction) : Prop where
  running : m.halted = false
  noRoutine : m.runtime.routine? m.pc = none
  code : m.image.code[m.pc]? = some i

theorem step_of_fetches {m : Machine} {i : MachineInstruction} (h : m.Fetches i) (k : Nat) :
    (m.withSteps k).step = match m.effect i with
      | .error t => (some t, m.withSteps (k + 1))
      | .ok e => (none, (m.perform e).withSteps (k + 1)) := by
  have hh : (m.withSteps k).halted = false := h.running
  have hr : (m.withSteps k).runtime.routine? (m.withSteps k).pc = none := h.noRoutine
  have hc : (m.withSteps k).image.code[(m.withSteps k).pc]? = some i := h.code
  rw [step_eq hh]
  simp only [hr, hc, withSteps_withSteps, steps_withSteps, effect_withSteps, perform_withSteps]

theorem Fetches.exec {m : Machine} {i : MachineInstruction} {e : Effect} (h : m.Fetches i)
    (he : m.effect i = .ok e) : Exec m (m.perform e) := by
  intro k
  refine ⟨k + 1, .single ⟨h.running, ?_⟩⟩
  rw [step_of_fetches h k, he]

/-- A library routine that does not trap returns through the link register. -/
theorem exec_call {m m' : Machine} {r : Routine} (hh : m.halted = false)
    (hr : m.runtime.routine? m.pc = some r) (hc : m.call r = (none, m')) :
    Exec m (m'.goto (m'.regs.get linkRegister)) := by
  intro k
  refine ⟨k + 1, .single ⟨hh, ?_⟩⟩
  have hr' : (m.withSteps k).runtime.routine? (m.withSteps k).pc = some r := hr
  have hh' : (m.withSteps k).halted = false := hh
  rw [step_eq hh']
  simp only [hr', withSteps_withSteps, steps_withSteps, call_withSteps, hc]
  rfl

/-! ### Whole runs -/

theorem Next.steps_eq {m m' : Machine} (h : Next m m') : m'.steps = m.steps + 1 := by
  obtain ⟨hh, hs⟩ := h
  rw [step_eq hh] at hs
  split at hs
  · rename_i r hr
    rw [call_withSteps] at hs
    split at hs
    · cases hs
    · rename_i m₁ hm₁
      have h2 := congrArg Prod.snd hs
      have h3 := congrArg Prod.snd hm₁
      simp only at h2 h3
      rw [← h2, ← h3]
      rfl
  · split at hs
    · cases hs
    · rename_i i hi
      split at hs
      · cases hs
      · rename_i e he
        rw [perform_withSteps] at hs
        have h2 := congrArg Prod.snd hs
        simp only at h2
        rw [← h2]
        rfl

theorem Steps.le {m m' : Machine} (h : Steps m m') : m.steps ≤ m'.steps := by
  induction h with
  | refl => exact Nat.le_refl _
  | tail _ hs ih =>
    have := hs.steps_eq
    omega

theorem runFor_of_steps {m m' : Machine} (limit : Int64) (h : Steps m m') (fuel : Nat) :
    runFor limit (m'.steps - m.steps + fuel) m = runFor limit fuel m' := by
  induction h using Relation.ReflTransGen.head_induction_on with
  | refl => simp
  | head hs hrest ih =>
    rename_i m₁ m₂
    have hle : m₂.steps ≤ m'.steps := Steps.le hrest
    have he := hs.steps_eq
    have hf : m'.steps - m₁.steps + fuel = (m'.steps - m₂.steps + fuel) + 1 := by omega
    rw [hf, runFor, hs.1, if_neg Bool.false_ne_true, hs.2]
    exact ih

/-- A machine that reaches a halt within its allowance answers with that halt. -/
theorem run_of_steps {m m' : Machine} (h : Steps m m') (hh : m'.halted = true)
    (hf : m'.steps - m.steps ≤ m.allowance) : m.run = (none, m') := by
  obtain ⟨fuel, hfuel⟩ := Nat.exists_eq_add_of_le hf
  have hr := runFor_of_steps m.runtime.maxSteps h fuel
  simp only [run, hfuel, hr]
  cases fuel with
  | zero => simp [runFor, hh]
  | succ n => simp [runFor, hh]

theorem run_of_trap {m m' m'' : Machine} {t : Trap} (h : Steps m m') (hh : m'.halted = false)
    (ht : m'.step = (some t, m'')) (hf : m'.steps - m.steps < m.allowance) :
    m.run = (some t, m'') := by
  obtain ⟨fuel, hfuel⟩ := Nat.exists_eq_add_of_lt hf
  have hr := runFor_of_steps m.runtime.maxSteps h (fuel + 1)
  simp only [run, hfuel, Nat.add_assoc, hr]
  simp [runFor, hh, ht]

end MoonBackend.Machine
