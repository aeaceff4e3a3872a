import MoonBackend.Fault

/-!
# The register pool

The scratch registers that are free, last in first out, and those that are held. A register is
released exactly once, and only by who holds it. Section 4.2 of the specification.
-/

namespace MoonBackend

/-- A pool of scratch registers. The register at the head of `free` is handed out next; `held` and
`general` have no repetitions. -/
structure RegisterPool where
  free : List Register
  held : List Register
  general : List Register
  deriving DecidableEq

namespace RegisterPool

/-- A pool over the given registers, the first of which is handed out first. -/
def ofNumbers (numbers : List Int64) : RegisterPool :=
  let regs := numbers.map Register.mk
  ⟨regs, [], regs.eraseDups⟩

def acquire (p : RegisterPool) : Except Fault (Register × RegisterPool) :=
  match p.free with
  | [] => .error (.poolExhausted p.held.length)
  | r :: free => .ok (r, { p with free := free, held := p.held.insert r })

theorem acquire_eq_ok_iff {p q : RegisterPool} {r : Register} :
    p.acquire = .ok (r, q) ↔
      ∃ free, p.free = r :: free ∧ q = { p with free := free, held := p.held.insert r } := by
  unfold acquire
  split
  · rename_i h
    simp [h]
  · rename_i r' free h
    simp only [Except.ok.injEq, Prod.mk.injEq, h, List.cons.injEq]
    constructor
    · rintro ⟨rfl, rfl⟩
      exact ⟨free, ⟨rfl, rfl⟩, rfl⟩
    · rintro ⟨free', ⟨rfl, rfl⟩, rfl⟩
      exact ⟨rfl, rfl⟩

def release (p : RegisterPool) (r : Register) : Except Fault RegisterPool :=
  if !p.general.contains r then .error (.foreignRegister r)
  else if !p.held.contains r then .error (.doubleRelease r)
  else .ok { p with free := r :: p.free, held := p.held.erase r }

theorem release_eq_ok_iff {p q : RegisterPool} {r : Register} :
    p.release r = .ok q ↔
      r ∈ p.general ∧ r ∈ p.held ∧ q = { p with free := r :: p.free, held := p.held.erase r } := by
  unfold release
  by_cases hg : r ∈ p.general
  · by_cases hh : r ∈ p.held
    · simp [hg, hh, eq_comm]
    · simp [hg, hh]
  · simp [hg]

/-- Takes `n` registers. When the pool runs out, those already taken stay held. -/
def acquireMany : Nat → RegisterPool → Except Fault (List Register) × RegisterPool
  | 0, p => (.ok [], p)
  | n + 1, p =>
    match p.acquire with
    | .error f => (.error f, p)
    | .ok (r, p) =>
      match acquireMany n p with
      | (.ok rs, p) => (.ok (r :: rs), p)
      | (.error f, p) => (.error f, p)

/-- Gives registers back one after the other, up to the first that is refused. -/
def releaseMany : List Register → RegisterPool → Except Fault Unit × RegisterPool
  | [], p => (.ok (), p)
  | r :: rs, p =>
    match p.release r with
    | .error f => (.error f, p)
    | .ok p => releaseMany rs p

/-- Runs `body` with `n` registers, which are given back in reverse order afterwards, also when
`body` faults. -/
def withMany {α : Type} (n : Nat)
    (body : List Register → RegisterPool → Except Fault α × RegisterPool) (p : RegisterPool) :
    Except Fault α × RegisterPool :=
  match p.acquireMany n with
  | (.error f, p) => (.error f, p)
  | (.ok rs, p) =>
    match body rs p with
    | (result, p) =>
      match p.releaseMany rs.reverse with
      | (.ok (), p) => (result, p)
      | (.error f, p) => (.error f, p)

def live (p : RegisterPool) : Nat := p.held.length

def capacity (p : RegisterPool) : Nat := p.general.length

end RegisterPool

end MoonBackend
