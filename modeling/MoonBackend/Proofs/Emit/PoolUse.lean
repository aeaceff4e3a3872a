import MoonBackend.Proofs.Emit.Registers
import Mathlib.Logic.Relation

/-!
# Uses of the register pool

A `PoolUse` is any sequence of requests to a pool: registers are taken and given back, also wrong
ones, work with registers is nested to any depth, and a fault is passed on or caught. Whatever is
done, the pool only ever moves by taking one free register or giving one held register back, and
each such move keeps the free and the held registers a partition of the registers of the pool.
-/

namespace MoonBackend

namespace RegisterPool

variable {p q : RegisterPool} {r : Register}

/-! ### Single moves -/

/-- One register changes hands. -/
inductive Moves (p q : RegisterPool) : Prop
  | acquire {r : Register} (h : p.acquire = .ok (r, q))
  | release {r : Register} (h : p.release r = .ok q)

def Leads : RegisterPool → RegisterPool → Prop := Relation.ReflTransGen Moves

theorem Sound.of_moves (h : p.Sound) (hm : Moves p q) : q.Sound := by
  cases hm with
  | @acquire r hacq =>
    obtain ⟨rest, hfree, -⟩ := acquire_eq_ok_iff.1 hacq
    rw [h.acquire hfree] at hacq
    obtain rfl := (Prod.mk.inj (Except.ok.inj hacq)).2
    exact h.of_acquire hfree
  | release hrel =>
    obtain ⟨-, hheld, rfl⟩ := release_eq_ok_iff.1 hrel
    exact h.of_erase hheld

theorem Moves.general_eq (hm : Moves p q) : q.general = p.general := by
  cases hm with
  | acquire hacq =>
    obtain ⟨rest, -, rfl⟩ := acquire_eq_ok_iff.1 hacq
    rfl
  | release hrel =>
    obtain ⟨-, -, rfl⟩ := release_eq_ok_iff.1 hrel
    rfl

theorem Sound.of_leads (h : p.Sound) (hl : Leads p q) : q.Sound ∧ q.general = p.general := by
  induction hl with
  | refl => exact ⟨h, rfl⟩
  | tail _ hm ih => exact ⟨ih.1.of_moves hm, hm.general_eq.trans ih.2⟩

/-- A pool that fails to give as many registers as are asked for has given those it had. -/
theorem leads_acquireMany (p : RegisterPool) (n : Nat) : Leads p (p.acquireMany n).2 := by
  induction n generalizing p with
  | zero => exact .refl
  | succ n ih =>
    unfold RegisterPool.acquireMany
    split
    · exact .refl
    · rename_i r p' hacq
      have hrest := Relation.ReflTransGen.head (Moves.acquire hacq) (ih p')
      split <;> rename_i hmany <;> rwa [hmany] at hrest

theorem leads_releaseMany (p : RegisterPool) (rs : List Register) :
    Leads p (p.releaseMany rs).2 := by
  induction rs generalizing p with
  | nil => exact .refl
  | cons r rs ih =>
    unfold RegisterPool.releaseMany
    split
    · exact .refl
    · rename_i p' hrel
      exact .head (.release hrel) (ih p')

theorem leads_withMany {α : Type} {n : Nat}
    {body : List Register → RegisterPool → Except Fault α × RegisterPool}
    (hbody : ∀ rs q, Leads q (body rs q).2) (p : RegisterPool) :
    Leads p (p.withMany n body).2 := by
  have htake := leads_acquireMany p n
  unfold withMany
  split
  · rename_i f p₁ hacq
    rwa [hacq] at htake
  · rename_i rs p₁ hacq
    rw [hacq] at htake
    have hwork := htake.trans (hbody rs p₁)
    split
    rename_i result p₂ hrun
    rw [hrun] at hwork
    have hback := hwork.trans (leads_releaseMany p₂ rs.reverse)
    split <;> rename_i hrel <;> rwa [hrel] at hback

/-! ### What a sound pool answers -/

theorem acquire_eq_error_iff {f : Fault} :
    p.acquire = .error f ↔ p.free = [] ∧ f = .poolExhausted p.live := by
  unfold acquire
  cases hfree : p.free with
  | nil => simp [live, eq_comm]
  | cons r rest => simp

theorem release_eq_error_iff {f : Fault} :
    p.release r = .error f ↔ r ∉ p.general ∧ f = .foreignRegister r
      ∨ r ∈ p.general ∧ r ∉ p.held ∧ f = .doubleRelease r := by
  unfold release
  by_cases hgeneral : r ∈ p.general
  · by_cases hheld : r ∈ p.held
    · simp [hgeneral, hheld]
    · simp [hgeneral, hheld, eq_comm]
  · simp [hgeneral, eq_comm]

theorem Sound.not_mem_held (h : p.Sound) (hacq : p.acquire = .ok (r, q)) : r ∉ p.held := by
  obtain ⟨rest, hfree, -⟩ := acquire_eq_ok_iff.1 hacq
  have hnodup := h.nodup
  rw [hfree] at hnodup
  exact fun hheld => (List.nodup_cons.1 hnodup).1 (List.mem_append_right _ hheld)

theorem Sound.perm_general (h : p.Sound) (hn : p.general.Nodup) :
    (p.free ++ p.held).Perm p.general :=
  (List.perm_ext_iff_of_nodup h.nodup hn).2 fun r => by
    rw [List.mem_append, h.mem_general r]

/-- Work that leaves the pool as it found it, whether it succeeds or not, leaves no trace: the
registers that it was given go back to where they were taken from. -/
theorem Sound.withMany_restores {α : Type} {n : Nat} {rs : List Register} {result : Except Fault α}
    {body : List Register → RegisterPool → Except Fault α × RegisterPool} (h : p.Sound)
    (hacq : p.acquireMany n = (.ok rs, q)) (hbody : body rs q = (result, q)) :
    p.withMany n body = (result, p) := by
  have hn : n ≤ p.free.length := by
    refine Nat.le_of_not_lt fun hlt => ?_
    obtain ⟨f, q', hfail⟩ := p.acquireMany_error hlt
    rw [hfail] at hacq
    cases hacq
  have htaken := h.acquireMany n hn
  rw [hacq] at htaken
  obtain ⟨hrs, rfl⟩ := Prod.mk.inj htaken
  obtain rfl := Except.ok.inj hrs
  simp only [withMany, hacq, hbody, h.releaseMany_taken n]

end RegisterPool

open RegisterPool

/-! ### Sequences of requests -/

/-- What is asked of a pool, one request after the other. What follows may depend on the registers
that were handed out and on the faults that were caught. -/
inductive PoolUse where
  | done
  | fault (f : Fault)
  | acquire (next : Register → PoolUse)
  | release (r : Register) (next : PoolUse)
  | withMany (n : Nat) (body : List Register → PoolUse) (next : PoolUse)
  | attempt (body : PoolUse) (next : Option Fault → PoolUse)

namespace PoolUse

def run : PoolUse → RegisterPool → Except Fault Unit × RegisterPool
  | done, p => (.ok (), p)
  | fault f, p => (.error f, p)
  | acquire next, p =>
    match p.acquire with
    | .error f => (.error f, p)
    | .ok (r, q) => (next r).run q
  | release r next, p =>
    match p.release r with
    | .error f => (.error f, p)
    | .ok q => next.run q
  | withMany n body next, p =>
    match p.withMany n fun rs => (body rs).run with
    | (.error f, q) => (.error f, q)
    | (.ok (), q) => next.run q
  | attempt body next, p =>
    match body.run p with
    | (.error f, q) => (next (some f)).run q
    | (.ok (), q) => (next none).run q

/-- The pool is in a state at some point while the requests are made: between two of them, inside
work with registers, and while registers for such work are taken or given back. -/
inductive Meets : PoolUse → RegisterPool → RegisterPool → Prop
  | start {u : PoolUse} {p : RegisterPool} : Meets u p p
  | finish {u : PoolUse} {p : RegisterPool} : Meets u p (u.run p).2
  | acquire {next : Register → PoolUse} {p p' q : RegisterPool} {r : Register}
      (h : p.acquire = .ok (r, p')) (hnext : Meets (next r) p' q) : Meets (acquire next) p q
  | release {r : Register} {next : PoolUse} {p p' q : RegisterPool}
      (h : p.release r = .ok p') (hnext : Meets next p' q) : Meets (release r next) p q
  | taking {n k : Nat} {body : List Register → PoolUse} {next : PoolUse} {p : RegisterPool}
      (hk : k ≤ n) : Meets (withMany n body next) p (p.acquireMany k).2
  | inside {n : Nat} {body : List Register → PoolUse} {next : PoolUse} {p p' q : RegisterPool}
      {rs : List Register} (h : p.acquireMany n = (.ok rs, p')) (hbody : Meets (body rs) p' q) :
      Meets (withMany n body next) p q
  | giving {n k : Nat} {body : List Register → PoolUse} {next : PoolUse} {p p' : RegisterPool}
      {rs : List Register} (h : p.acquireMany n = (.ok rs, p')) (hk : k ≤ n) :
      Meets (withMany n body next) p (((body rs).run p').2.releaseMany (rs.reverse.take k)).2
  | after {n : Nat} {body : List Register → PoolUse} {next : PoolUse} {p p' q : RegisterPool}
      (h : p.withMany n (fun rs => (body rs).run) = (.ok (), p')) (hnext : Meets next p' q) :
      Meets (withMany n body next) p q
  | attempted {body : PoolUse} {next : Option Fault → PoolUse} {p q : RegisterPool}
      (hbody : Meets body p q) : Meets (attempt body next) p q
  | caught {body : PoolUse} {next : Option Fault → PoolUse} {p p' q : RegisterPool} {f : Fault}
      (h : body.run p = (.error f, p')) (hnext : Meets (next (some f)) p' q) :
      Meets (attempt body next) p q
  | succeeded {body : PoolUse} {next : Option Fault → PoolUse} {p p' q : RegisterPool}
      (h : body.run p = (.ok (), p')) (hnext : Meets (next none) p' q) :
      Meets (attempt body next) p q

theorem leads_run (u : PoolUse) (p : RegisterPool) : Leads p (u.run p).2 := by
  induction u generalizing p with
  | done => exact .refl
  | fault f => exact .refl
  | acquire next ih =>
    unfold run
    split
    · exact .refl
    · rename_i r q hacq
      exact .head (.acquire hacq) (ih r q)
  | release r next ih =>
    unfold run
    split
    · exact .refl
    · rename_i q hrel
      exact .head (.release hrel) (ih q)
  | withMany n body next ihbody ihnext =>
    have hwork : Leads p (p.withMany n fun rs => (body rs).run).2 := leads_withMany ihbody p
    unfold run
    split
    · rename_i f q hwith
      rwa [hwith] at hwork
    · rename_i q hwith
      rw [hwith] at hwork
      exact hwork.trans (ihnext q)
  | attempt body next ihbody ihnext =>
    have hbody := ihbody p
    unfold run
    split
    · rename_i f q hrun
      rw [hrun] at hbody
      exact hbody.trans (ihnext _ q)
    · rename_i q hrun
      rw [hrun] at hbody
      exact hbody.trans (ihnext _ q)

theorem leads_of_meets {u : PoolUse} {p q : RegisterPool} (h : u.Meets p q) : Leads p q := by
  induction h with
  | start => exact .refl
  | finish => exact leads_run _ _
  | acquire hacq _ ih => exact .head (.acquire hacq) ih
  | release hrel _ ih => exact .head (.release hrel) ih
  | taking => exact leads_acquireMany _ _
  | @inside n body next p p' q rs hacq _ ih =>
    have htake := leads_acquireMany p n
    rw [hacq] at htake
    exact htake.trans ih
  | @giving n k body next p p' rs hacq =>
    have htake := leads_acquireMany p n
    rw [hacq] at htake
    exact (htake.trans (leads_run _ _)).trans (leads_releaseMany _ _)
  | @after n body next p p' q hwith _ ih =>
    have hwork := leads_withMany (n := n) (fun rs q => leads_run (body rs) q) p
    rw [hwith] at hwork
    exact hwork.trans ih
  | attempted _ ih => exact ih
  | @caught body next p p' q f hrun _ ih =>
    have hbody := leads_run body p
    rw [hrun] at hbody
    exact hbody.trans ih
  | @succeeded body next p p' q hrun _ ih =>
    have hbody := leads_run body p
    rw [hrun] at hbody
    exact hbody.trans ih

/-- A pool over different registers, at any point of any use of it. Free and held registers are
the registers of the pool, each once. A register that is handed out was not held, and one is handed
out unless none is free. A register is refused that is foreign or not held, and the pool is then as
it was. Work that leaves the pool as it found it restores it, the order of the free registers
included. -/
theorem pool_partitioned {numbers : List Int64} (hn : numbers.Nodup) {u : PoolUse}
    {p : RegisterPool} (h : u.Meets (.ofNumbers numbers) p) :
    p.free.Nodup ∧ p.general = numbers.map Register.mk ∧ (p.free ++ p.held).Perm p.general
    ∧ p.live + p.free.length = p.capacity
    ∧ (∀ r q, p.acquire = .ok (r, q) → r ∉ p.held)
    ∧ (∀ f, p.acquire = .error f ↔ p.free = [] ∧ f = .poolExhausted p.live)
    ∧ (∀ r f, p.release r = .error f ↔ r ∉ p.general ∧ f = .foreignRegister r
        ∨ r ∈ p.general ∧ r ∉ p.held ∧ f = .doubleRelease r)
    ∧ (∀ r f next, p.release r = .error f →
        ((release r done).attempt next).run p = (next (some f)).run p)
    ∧ ∀ (α : Type) (n : Nat) (body : List Register → RegisterPool → Except Fault α × RegisterPool)
        (rs : List Register) (q : RegisterPool) (result : Except Fault α),
        p.acquireMany n = (.ok rs, q) → body rs q = (result, q) →
        p.withMany n body = (result, p) := by
  obtain ⟨hsound, hgeneral⟩ := (sound_ofNumbers hn).of_leads (leads_of_meets h)
  rw [general_ofNumbers hn] at hgeneral
  have hnodup : p.general.Nodup := by
    rw [hgeneral]
    exact List.pairwise_map.2 (hn.imp fun hne he => hne (Register.mk.inj he))
  have hperm := hsound.perm_general hnodup
  refine ⟨(List.nodup_append.1 hsound.nodup).1, hgeneral, hperm, ?_,
    fun r q hacq => hsound.not_mem_held hacq, fun f => acquire_eq_error_iff,
    fun r f => release_eq_error_iff, fun r f next hrel => ?_,
    fun α n body rs q result hacq hbody => hsound.withMany_restores hacq hbody⟩
  · rw [live, capacity, ← hperm.length_eq, List.length_append, Nat.add_comm]
  · simp only [run, hrel]

def greedyUse : PoolUse :=
  .withMany 2
      (fun _ => .attempt (.release ⟨9⟩ .done) fun _ => .withMany 1 (fun _ => .done) .done) <|
    .attempt (.withMany 4 (fun _ => .done) .done) fun _ => .done

/-- The four registers are not there, and the three that are stay held. -/
theorem pool_partitioned_greedy :
    (greedyUse.run (.ofNumbers [1, 2, 3])).2.held = [⟨3⟩, ⟨2⟩, ⟨1⟩]
    ∧ (greedyUse.run (.ofNumbers [1, 2, 3])).2.acquire = .error (.poolExhausted 3)
    ∧ (ofNumbers [1, 2, 3]).withMany 2 (fun rs q => (.ok rs, q))
        = (.ok [⟨1⟩, ⟨2⟩], ofNumbers [1, 2, 3]) := by
  have hn : [(1 : Int64), 2, 3].Nodup := by decide
  obtain ⟨-, -, -, -, -, hempty, -⟩ := pool_partitioned hn (u := greedyUse) .finish
  obtain ⟨-, -, -, -, -, -, -, -, hrestores⟩ := pool_partitioned hn (u := greedyUse) .start
  exact ⟨by decide, (hempty _).2 (by decide), hrestores _ 2 _ _ _ _ rfl rfl⟩

end PoolUse

end MoonBackend
