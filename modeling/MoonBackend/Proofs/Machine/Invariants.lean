import MoonBackend.Proofs.Machine.Safety

/-!
# What every run keeps

Register 0 is zero at the start and no instruction and no library routine writes it; the memory
keeps the size that the configuration gives it. A step of a halted machine does nothing, and an
instruction that traps is only counted: its effect is found out before any of it is done.
-/

namespace MoonBackend

namespace Machine

variable {m : Machine}

/-! ### Register 0 -/

theorem get_zero_setReg (m : Machine) (r : UInt8) (v : Int32) :
    (m.setReg r v).regs.get 0 = m.regs.get 0 := by
  unfold setReg
  split
  · rfl
  · rename_i hr
    have hne : r.toNat ≠ 0 := fun h => hr (by simpa using UInt8.toNat_inj.1 h)
    show (m.regs.setIfInBounds r.toNat v)[0] = m.regs[0]
    rw [Vector.getElem_setIfInBounds_ne _ hne]

theorem get_zero_perform (m : Machine) (e : Effect) :
    (m.perform e).regs.get 0 = m.regs.get 0 := by
  cases e with
  | write r v => exact get_zero_setReg m r v
  | link r target => exact get_zero_setReg m r (m.pc + 4)
  | storeWord addr v => simp only [perform, putWord, proceed]
  | readByte r =>
    simp only [perform]
    split
    · exact get_zero_setReg m r 0
    · rename_i b rest _
      exact get_zero_setReg { m with input := rest } r (Int32.ofNat b.toNat)
  | _ => rfl

theorem get_zero_setResult (m : Machine) (v : Int32) :
    (m.setResult v).regs.get 0 = m.regs.get 0 := by
  show (m.regs.set 13 v)[0] = m.regs[0]
  rw [Vector.getElem_set_ne _ _ (by decide)]

theorem regs_putText (m : Machine) (addr : Int32) (text : List UInt8) :
    (m.putText addr text).2.regs = m.regs := by
  rw [putText_eq]

theorem get_zero_call (m : Machine) (r : Routine) : (m.call r).2.regs.get 0 = m.regs.get 0 := by
  cases r with
  | intToString =>
    show m.intToString.2.regs.get 0 = _
    unfold intToString
    split
    · rfl
    · split
      · rfl
      · rename_i v _ _ buffer _
        have hregs := regs_putText m buffer (Text.textBytes (Text.decimal v.toInt))
        split
        · rename_i t m' hput
          rw [hput] at hregs
          rw [hregs]
        · rename_i m' hput
          rw [hput] at hregs
          rw [get_zero_setResult, hregs]
  | readString =>
    show m.readString.2.regs.get 0 = _
    unfold readString
    split
    · rfl
    · dsimp only
      split
      · rfl
      · rw [regs_putText]
  | printString =>
    show m.printString.2.regs.get 0 = _
    unfold printString
    split
    · rfl
    · split <;> rfl
  | stringToInt =>
    show m.stringToInt.2.regs.get 0 = _
    unfold stringToInt
    split
    · rfl
    · split
      · rfl
      · rw [get_zero_setResult]

/-! ### Steps -/

theorem step_of_halted (h : m.halted = true) : m.step = (none, m) := by
  rw [step, if_pos h]

/-- No step changes register 0, neither one that succeeds nor one that fails. -/
theorem get_zero_step (m : Machine) : m.step.2.regs.get 0 = m.regs.get 0 := by
  cases hh : m.halted with
  | true => rw [step_of_halted hh]
  | false =>
    rw [step_eq hh]
    split
    · rename_i r _
      have hcall := get_zero_call (m.withSteps (m.steps + 1)) r
      split
      · rename_i t m' he
        rw [he] at hcall
        exact hcall
      · rename_i m' he
        rw [he] at hcall
        exact hcall
    · split
      · rfl
      · split
        · rfl
        · rename_i e _
          exact get_zero_perform (m.withSteps (m.steps + 1)) e

/-- An instruction that traps is counted and does nothing else. -/
theorem step_of_trap {t : Trap} (hr : m.runtime.routine? m.pc = none) (ht : m.step.1 = some t) :
    m.step.2 = m.withSteps (m.steps + 1) := by
  cases hh : m.halted with
  | true =>
    rw [step_of_halted hh] at ht
    cases ht
  | false =>
    rw [step_eq hh] at ht ⊢
    simp only [hr] at ht ⊢
    split
    · rfl
    · rename_i i hi
      simp only [hi] at ht
      split
      · rfl
      · rename_i e he
        simp only [he] at ht
        cases ht

/-! ### Runs -/

structure Steady (size : Nat) (m : Machine) : Prop where
  zero : m.regs.get 0 = 0
  size : m.memory.size = size

theorem steady_of_ofImage {p : Image} {rt : Runtime} {input : List UInt8}
    (hm : ofImage p rt input = .ok m) : m.Steady rt.memorySize.toNatClampNeg := by
  unfold ofImage at hm
  split at hm
  · cases hm
  · rw [← Except.ok.inj hm]
    exact ⟨rfl, rfl⟩

theorem Steady.step {size : Nat} (h : m.Steady size) : m.step.2.Steady size :=
  ⟨(get_zero_step m).trans h.zero, (keeps_step m).size.trans h.size⟩

theorem Steady.iterate {size : Nat} (h : m.Steady size) (n : ℕ) :
    ((fun m : Machine => m.step.2)^[n] m).Steady size := by
  induction n generalizing m with
  | zero => exact h
  | succ n ih => exact ih h.step

/-- In every state that a machine comes to by any number of steps, also through library routines
and after steps that failed, register 0 is zero and the memory has the size that the configuration
gives, which a size below zero cannot. A step from there does nothing if the machine has halted, and
only counts itself if it traps outside the library. -/
theorem runs_keep {p : Image} {rt : Runtime} {input : List UInt8}
    (hm : ofImage p rt input = .ok m) (n : ℕ) :
    let m' := (fun m : Machine => m.step.2)^[n] m
    m'.regs.get 0 = 0
    ∧ (0 ≤ rt.memorySize → (m'.memory.size : Int) = rt.memorySize.toInt)
    ∧ (m'.halted = true → m'.step = (none, m'))
    ∧ ∀ t, m'.runtime.routine? m'.pc = none → m'.step.1 = some t →
        m'.step.2 = { m' with steps := m'.steps + 1 } := by
  intro m'
  have hs : m'.Steady _ := (steady_of_ofImage hm).iterate n
  refine ⟨hs.zero, fun hlow => ?_, step_of_halted, fun t hr ht => step_of_trap hr ht⟩
  have h0 := Int64.le_iff_toInt_le.1 hlow
  rw [hs.size, ← Int64.toNat_toInt]
  exact Int.toNat_of_nonneg h0

/-- Writes register 0 and then divides by it. -/
def zeroDivision : Image :=
  { code := (Std.TreeMap.empty.insert 0 ⟨.addi, 0, 0, 0, 5⟩).insert 4 ⟨.div, 1, 2, 0, 0⟩ }

def stopImage : Image := { code := Std.TreeMap.empty.insert 0 ⟨.hlt, 0, 0, 0, 0⟩ }

theorem runs_keep_zeroDivision :
    (∃ m, ofImage zeroDivision { memorySize := 64 } [] = .ok m
      ∧ m.step.2.regs.get 0 = 0 ∧ (m.step.2.memory.size : Int) = 64
      ∧ m.step.2.step.1 = some (.divide 4)
      ∧ m.step.2.step.2 = { m.step.2 with steps := m.step.2.steps + 1 })
    ∧ ∃ m, ofImage stopImage { memorySize := 64 } [] = .ok m
      ∧ m.step.2.halted = true ∧ m.step.2.step = (none, m.step.2) := by
  have hcheck : (match ofImage zeroDivision { memorySize := 64 } [] with
      | .ok m => decide (m.step.2.step.1 = some (.divide 4)
          ∧ m.step.2.runtime.routine? m.step.2.pc = none)
      | .error _ => false) = true := by decide
  have hstop : (match ofImage stopImage { memorySize := 64 } [] with
      | .ok m => m.step.2.halted
      | .error _ => false) = true := by decide
  split at hcheck
  · rename_i m hm
    obtain ⟨htrap, hroutine⟩ := of_decide_eq_true hcheck
    obtain ⟨hzero, hsize, -, hcount⟩ := runs_keep hm 1
    refine ⟨⟨m, hm, hzero, hsize (by decide), htrap, hcount _ hroutine htrap⟩, ?_⟩
    split at hstop
    · rename_i m' hm'
      exact ⟨m', hm', hstop, (runs_keep hm' 1).2.2.1 hstop⟩
    · cases hstop
  · cases hcheck

end Machine

end MoonBackend
