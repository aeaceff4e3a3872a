import MoonBackend.Proofs.Emit.Registers

/-!
# Reasoning about steps of emission

`Triple F c s x Q` says what a step does in a context and from given counts: an answer and the counts
after it satisfy `Q`, a fault satisfies `F`. There is one rule for each way to build a step, so that
a function of emission is gone through in the order in which it is written.
-/

namespace MoonBackend.Emit

variable {α β : Type}

/-- What a step answers satisfies `Q`, and a fault of it satisfies `F`. -/
def Triple (F : Fault → Prop) (c : Context) (s : Counts) (x : Emit α)
    (Q : α → Counts → Prop) : Prop :=
  match eval x c s with
  | (.ok a, s') => Q a s'
  | (.error f, _) => F f

namespace Triple

variable {F : Fault → Prop} {c : Context} {s : Counts} {x : Emit α} {Q R : α → Counts → Prop}

theorem of_eval {a : α} {s' : Counts} (h : eval x c s = (.ok a, s')) (hq : Q a s') :
    Triple F c s x Q := by
  unfold Triple
  rw [h]
  exact hq

theorem of_eval_error {f : Fault} {s' : Counts} (h : eval x c s = (.error f, s')) (hf : F f) :
    Triple F c s x Q := by
  unfold Triple
  rw [h]
  exact hf

theorem congr {y : Emit α} (h : eval x c s = eval y c s) (hy : Triple F c s y Q) :
    Triple F c s x Q := by
  unfold Triple at hy ⊢
  rwa [h]

theorem answer {a : α} {s' : Counts} (h : Triple F c s x Q) (he : eval x c s = (.ok a, s')) :
    Q a s' := by
  unfold Triple at h
  rwa [he] at h

theorem fault {f : Fault} {s' : Counts} (h : Triple F c s x Q) (he : eval x c s = (.error f, s')) :
    F f := by
  unfold Triple at h
  rwa [he] at h

theorem mono (h : Triple F c s x Q) (hq : ∀ a s', Q a s' → R a s') : Triple F c s x R := by
  unfold Triple at h ⊢
  split at h
  · exact hq _ _ h
  · exact h

theorem pure {a : α} (h : Q a s) : Triple F c s (pure a) Q := h

theorem bind {f : α → Emit β} {Q : β → Counts → Prop} (hx : Triple F c s x R)
    (hf : ∀ a s', R a s' → Triple F c s' (f a) Q) : Triple F c s (x >>= f) Q := by
  rcases he : eval x c s with ⟨e | a, s'⟩
  · exact of_eval_error (eval_bind_error he) (hx.fault he)
  · have hnext := hf a s' (hx.answer he)
    unfold Triple at hnext ⊢
    rwa [eval_bind_ok he]

theorem look {f : α → Emit β} {Q : β → Counts → Prop} {a : α} (he : eval x c s = (.ok a, s))
    (hf : Triple F c s (f a) Q) : Triple F c s (x >>= f) Q := by
  unfold Triple at hf ⊢
  rwa [eval_bind_ok he]

theorem look_lift {f : α → Emit β} {Q : β → Counts → Prop} {y : Except Fault α}
    (he : eval x c s = (y, s)) (herr : ∀ e, y = .error e → F e)
    (hf : ∀ a, y = .ok a → Triple F c s (f a) Q) : Triple F c s (x >>= f) Q := by
  unfold Triple
  rw [eval_bind, he]
  cases y with
  | error e => exact herr e rfl
  | ok a => exact hf a rfl

theorem lift {y : Except Fault α} (ha : ∀ a, y = .ok a → Q a s) (hf : ∀ f, y = .error f → F f) :
    Triple F c s (lift y) Q := by
  unfold Triple
  rw [eval_lift]
  cases y with
  | error f => exact hf f rfl
  | ok a => exact ha a rfl

theorem ite {p : Prop} [Decidable p] {y : Emit α} (hx : p → Triple F c s x Q)
    (hy : ¬ p → Triple F c s y Q) : Triple F c s (if p then x else y) Q := by
  split
  · exact hx ‹p›
  · exact hy ‹¬ p›

theorem withRegisters_any {n : Nat} {body : List Register → Emit α}
    (h : ∀ rs pool, Triple (fun _ => True) c { s with pool := pool } (body rs) fun a s' =>
      ∀ pool', Q a { s' with pool := pool' }) :
    Triple (fun _ => True) c s (withRegisters n body) Q := by
  unfold Triple
  rw [eval_withRegisters]
  rcases s.pool.acquireMany n with ⟨_ | rs, pool⟩
  · trivial
  · have hb := h rs pool
    unfold Triple at hb
    simp only
    rcases he : eval (body rs) c { s with pool := pool } with ⟨_ | a, s'⟩
    · rcases s'.pool.releaseMany rs.reverse with ⟨_ | u, pool'⟩
      · trivial
      · trivial
    · rw [he] at hb
      simp only at hb ⊢
      rcases s'.pool.releaseMany rs.reverse with ⟨_ | u, pool'⟩
      · trivial
      · exact hb pool'

end Triple

end MoonBackend.Emit
