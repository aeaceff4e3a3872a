import MoonBackend.Log
import MoonBackend.Machine.Library

/-!
# Running the machine

A step first finds out what the instruction at the program counter does and then does it, so an
instruction that traps leaves the machine as it was, apart from the count of steps.
-/

namespace MoonBackend

/-- What an instruction does, once it is known not to trap. -/
inductive Effect where
  | proceed
  | halt
  | write (r : UInt8) (v : Int32)
  | storeWord (addr v : Int32)
  | storeByte (addr v : Int32)
  | readByte (r : UInt8)
  | print (b : UInt8)
  | goto (target : Int32)
  | link (r : UInt8) (target : Int32)
  deriving DecidableEq

def truth (b : Bool) : Int32 := if b then 1 else 0

/-- A word shifted to the left; a distance outside the word leaves nothing. -/
def shiftLeft (v k : Int32) : Int32 := if 0 ≤ k && k < 32 then v <<< k else 0

/-- A word shifted to the right with zeros coming in; a distance outside the word leaves nothing. -/
def shiftRight (v k : Int32) : Int32 :=
  if 0 ≤ k && k < 32 then (v.toUInt32 >>> k.toUInt32).toInt32 else 0

namespace Machine

def quotient (m : Machine) (r : UInt8) (a b : Int32) : Except Trap Effect :=
  if b == 0 then .error (.divide m.pc) else .ok (.write r (a / b))

/-- The remainder of two words, which has the sign of the dividend. -/
def remainder (m : Machine) (r : UInt8) (a b : Int32) : Except Trap Effect :=
  if b == 0 then .error (.divide m.pc) else .ok (.write r (a % b))

def effectOn (m : Machine) (i : MachineInstruction) (ri rj rk : Int32) : Except Trap Effect :=
  match i.op with
  | .nop => .ok .proceed
  | .hlt => .ok .halt
  | .lw => (m.loadWord (rj + i.k)).map (.write i.ri)
  | .lb => (m.loadByte (rj + i.k)).map fun b => .write i.ri (Int32.ofNat b.toNat)
  | .sw => (m.check (rj + i.k) 4).map fun _ => .storeWord (rj + i.k) ri
  | .sb => (m.check (rj + i.k) 1).map fun _ => .storeByte (rj + i.k) ri
  | .add => .ok (.write i.ri (rj + rk))
  | .sub => .ok (.write i.ri (rj - rk))
  | .mul => .ok (.write i.ri (rj * rk))
  | .div => m.quotient i.ri rj rk
  | .mod => m.remainder i.ri rj rk
  | .and => .ok (.write i.ri (rj &&& rk))
  | .or => .ok (.write i.ri (rj ||| rk))
  | .not => .ok (.write i.ri (~~~rj))
  | .ceq => .ok (.write i.ri (truth (rj == rk)))
  | .cne => .ok (.write i.ri (truth (rj != rk)))
  | .clt => .ok (.write i.ri (truth (rj < rk)))
  | .cle => .ok (.write i.ri (truth (rj ≤ rk)))
  | .cgt => .ok (.write i.ri (truth (rk < rj)))
  | .cge => .ok (.write i.ri (truth (rk ≤ rj)))
  | .addi => .ok (.write i.ri (rj + i.k))
  | .subi => .ok (.write i.ri (rj - i.k))
  | .muli => .ok (.write i.ri (rj * i.k))
  | .divi => m.quotient i.ri rj i.k
  | .modi => m.remainder i.ri rj i.k
  | .andi => .ok (.write i.ri (rj &&& i.k))
  | .ori => .ok (.write i.ri (rj ||| i.k))
  | .ceqi => .ok (.write i.ri (truth (rj == i.k)))
  | .cnei => .ok (.write i.ri (truth (rj != i.k)))
  | .clti => .ok (.write i.ri (truth (rj < i.k)))
  | .clei => .ok (.write i.ri (truth (rj ≤ i.k)))
  | .cgti => .ok (.write i.ri (truth (i.k < rj)))
  | .cgei => .ok (.write i.ri (truth (i.k ≤ rj)))
  | .sl => .ok (.write i.ri (shiftLeft ri i.k))
  | .sr => .ok (.write i.ri (shiftRight ri i.k))
  | .getc => .ok (.readByte i.ri)
  | .putc => .ok (.print (byteAt ri 0))
  | .bz => .ok (if ri == 0 then .goto i.k else .proceed)
  | .bnz => .ok (if ri == 0 then .proceed else .goto i.k)
  | .j => .ok (.goto i.k)
  | .jr => .ok (.goto ri)
  | .jl => .ok (.link i.ri i.k)
  | .jlr => .ok (.link i.ri rj)
  | .undefined code => .error (.unknownOpcode (.undefined code) m.pc)

def effect (m : Machine) (i : MachineInstruction) : Except Trap Effect :=
  match m.reg? i.ri, m.reg? i.rj, m.reg? i.rk with
  | some ri, some rj, some rk => m.effectOn i ri rj rk
  | _, _, _ => .error .overrun

def goto (m : Machine) (pc : Int32) : Machine := { m with pc := pc }

def proceed (m : Machine) : Machine := { m with pc := m.pc + 4 }

def perform (m : Machine) : Effect → Machine
  | .proceed => m.proceed
  | .halt => { m.proceed with halted := true }
  | .write r v => (m.setReg r v).proceed
  | .storeWord addr v => (m.putWord addr v).proceed
  | .storeByte addr v => (m.putByte addr v).proceed
  | .readByte r =>
    match m.input with
    | [] => (m.setReg r 0).proceed
    | b :: rest => (({ m with input := rest } : Machine).setReg r (Int32.ofNat b.toNat)).proceed
  | .print b =>
    ({ m with output := m.output ++ Text.charBytes (Char.ofNat b.toNat) } : Machine).proceed
  | .goto target => m.goto target
  | .link r target =>
    let next := m.pc + 4
    (m.setReg r next).goto target

theorem size_memory_perform (m : Machine) (e : Effect) :
    (m.perform e).memory.size = m.memory.size := by
  cases e with
  | readByte r =>
    simp only [perform]
    split <;> simp [setReg, proceed] <;> split <;> rfl
  | write r v => simp only [perform, setReg, proceed]; split <;> rfl
  | link r target => simp only [perform, setReg, goto]; split <;> rfl
  | storeWord addr v => simp [perform, putWord, proceed]
  | storeByte addr v => simp [perform, putByte, proceed]
  | _ => rfl

/-- One step: a library routine when the program counter is at its entry, else an instruction. -/
def step (m : Machine) : Option Trap × Machine :=
  if m.halted then (none, m)
  else
    let m := { m with steps := m.steps + 1 }
    match m.runtime.routine? m.pc with
    | some routine =>
      match m.call routine with
      | (some t, m) => (some t, m)
      | (none, m) => (none, m.goto (m.regs.get linkRegister))
    | none =>
      match m.image.code[m.pc]? with
      | none => (some (.noInstruction m.pc), m)
      | some i =>
        match m.effect i with
        | .error t => (some t, m)
        | .ok e => (none, m.perform e)

/-- Steps until the machine halts, at most `fuel` times. -/
def runFor (limit : Int64) : Nat → Machine → Option Trap × Machine
  | 0, m => if m.halted then (none, m) else (some (.stepLimit limit), m)
  | fuel + 1, m =>
    if m.halted then (none, m)
    else
      match m.step with
      | (some t, m) => (some t, m)
      | (none, m) => runFor limit fuel m

/-- How many steps a machine may still take. Without a limit it is a count that no run reaches. -/
def allowance (m : Machine) : Nat :=
  if 0 < m.runtime.maxSteps then (m.runtime.maxSteps.toInt - m.steps).toNat else Nat.pow 2 62

def run (m : Machine) : Option Trap × Machine :=
  let limit := m.runtime.maxSteps
  let fuel := m.allowance
  runFor limit fuel m

def runLog : Option Trap × Machine → List LogRecord
  | (none, m) =>
    [.debug "moon" "halted" [("steps", .number m.steps),
      ("sp", .number (m.regs.get stackPointer).toInt)]]
  | (some (.stepLimit _), _) | (some .overrun, _) => []
  | (some t, m) =>
    [.debug "moon" "fault" [("pc", .number m.pc.toInt),
      ("line", .number ((m.image.lines[m.pc]?).getD 0)), ("err", .text t.message)]]

end Machine

end MoonBackend
