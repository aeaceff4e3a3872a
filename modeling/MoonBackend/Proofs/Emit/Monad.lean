import MoonBackend.Emit.Basic

/-!
# Running emission

`Emit.eval` runs a step of emission in a context and from given counts. The lemmas say what the
building blocks of a step answer, and take a sequence of steps apart.
-/

namespace MoonBackend.Emit

variable {α β : Type}

def eval (x : Emit α) (c : Context) (s : Counts) : Except Fault α × Counts :=
  ((ReaderT.run x c).run).run s

@[simp] theorem eval_pure (a : α) (c : Context) (s : Counts) :
    eval (pure a) c s = (.ok a, s) := rfl

theorem eval_bind (x : Emit α) (f : α → Emit β) (c : Context) (s : Counts) :
    eval (x >>= f) c s = match eval x c s with
      | (.ok a, s') => eval (f a) c s'
      | (.error e, s') => (.error e, s') := by
  show (ExceptT.bind (ReaderT.run x c) fun a => ReaderT.run (f a) c) s = _
  simp only [ExceptT.bind, ExceptT.mk]
  show (match ((ReaderT.run x c) s) with
    | (r, s') => (ExceptT.bindCont (fun a => ReaderT.run (f a) c) r) s') = _
  unfold eval
  generalize hr : (ReaderT.run x c).run.run s = r
  have hr' : (ReaderT.run x c) s = r := hr
  rw [hr']
  obtain ⟨_ | a, s'⟩ := r
  · rfl
  · rfl

theorem eval_bind_ok {x : Emit α} {f : α → Emit β} {c : Context} {s s' : Counts} {a : α}
    (h : eval x c s = (.ok a, s')) : eval (x >>= f) c s = eval (f a) c s' := by
  rw [eval_bind, h]

theorem eval_bind_error {x : Emit α} {f : α → Emit β} {c : Context} {s s' : Counts} {e : Fault}
    (h : eval x c s = (.error e, s')) : eval (x >>= f) c s = (.error e, s') := by
  rw [eval_bind, h]

/-- A sequence that succeeds is made of two steps that succeed. -/
theorem eval_bind_eq_ok {x : Emit α} {f : α → Emit β} {c : Context} {s t : Counts} {b : β} :
    eval (x >>= f) c s = (.ok b, t) ↔
      ∃ a s', eval x c s = (.ok a, s') ∧ eval (f a) c s' = (.ok b, t) := by
  rw [eval_bind]
  constructor
  · intro h
    split at h
    · rename_i a s' hx
      exact ⟨a, s', hx, h⟩
    · cases h
  · rintro ⟨a, s', hx, hf⟩
    rw [hx]
    exact hf

@[simp] theorem eval_map (f : α → β) (x : Emit α) (c : Context) (s : Counts) :
    eval (f <$> x) c s = match eval x c s with
      | (.ok a, s') => (.ok (f a), s')
      | (.error e, s') => (.error e, s') := by
  rw [map_eq_pure_bind, eval_bind]
  rfl

@[simp] theorem eval_throw (e : Fault) (c : Context) (s : Counts) :
    eval (throw e : Emit α) c s = (.error e, s) := rfl

@[simp] theorem eval_read (c : Context) (s : Counts) :
    eval (read : Emit Context) c s = (.ok c, s) := rfl

@[simp] theorem eval_get (c : Context) (s : Counts) :
    eval (get : Emit Counts) c s = (.ok s, s) := rfl

@[simp] theorem eval_modify (f : Counts → Counts) (c : Context) (s : Counts) :
    eval (modify f : Emit Unit) c s = (.ok (), f s) := rfl

@[simp] theorem eval_lift_ok (a : α) (c : Context) (s : Counts) :
    eval (lift (.ok a)) c s = (.ok a, s) := rfl

@[simp] theorem eval_lift_error (e : Fault) (c : Context) (s : Counts) :
    eval (lift (.error e) : Emit α) c s = (.error e, s) := rfl

theorem eval_lift (x : Except Fault α) (c : Context) (s : Counts) :
    eval (lift x) c s = (x, s) := by
  cases x with
  | error e => rfl
  | ok a => rfl

theorem eval_tryCatch (x : Emit α) (h : Fault → Emit α) (c : Context) (s : Counts) :
    eval (tryCatch x h) c s = match eval x c s with
      | (.ok a, s') => (.ok a, s')
      | (.error e, s') => eval (h e) c s' := by
  show (ExceptT.tryCatch (ReaderT.run x c) fun e => ReaderT.run (h e) c) s = _
  simp only [ExceptT.tryCatch, ExceptT.mk, bind, StateT.bind]
  unfold eval
  generalize hr : (ReaderT.run x c).run.run s = r
  have hr' : (ReaderT.run x c) s = r := hr
  rw [hr']
  obtain ⟨_ | a, s'⟩ := r
  · rfl
  · rfl

/-! ### Steps that only look -/

@[simp] theorem eval_stackPointer (c : Context) (s : Counts) :
    eval stackPointer c s = (.ok ⟨c.config.registers.stackPointer⟩, s) := rfl

@[simp] theorem eval_zero (c : Context) (s : Counts) :
    eval zero c s = (.ok ⟨c.config.registers.zero⟩, s) := rfl

@[simp] theorem eval_resultRegister (c : Context) (s : Counts) :
    eval resultRegister c s = (.ok ⟨c.config.registers.returnValue⟩, s) := rfl

@[simp] theorem eval_link (c : Context) (s : Counts) :
    eval link c s = (.ok ⟨c.config.registers.link⟩, s) := rfl

@[simp] theorem eval_wordSize (c : Context) (s : Counts) :
    eval wordSize c s = (.ok c.config.sizes.word, s) := rfl

@[simp] theorem eval_comment (text : String) (c : Context) (s : Counts) :
    eval (comment text) c s = (.ok (if c.config.emit.comments then [.comment text] else []), s) :=
  rfl

@[simp] theorem eval_frame (off : Int64) (c : Context) (s : Counts) :
    eval (frame off) c s = (.ok ⟨⟨c.config.registers.stackPointer⟩, off, false⟩, s) := rfl

@[simp] theorem eval_resolve (name : String) (c : Context) (s : Counts) :
    eval (resolve? name) c s = (.ok (c.layout.table.resolveName c.index name), s) := rfl

@[simp] theorem eval_frameSize (c : Context) (s : Counts) :
    eval frameSize c s = (c.scope.frameSize, s) := by
  show eval (lift c.scope.frameSize) c s = _
  exact eval_lift _ c s

theorem eval_slotOffset (node : Backing) (kind : EntryKind) (c : Context) (s : Counts) :
    eval (slotOffset node kind) c s = ((c.scope.requireSlot node kind).bind Entry.getOffset, s) := by
  show eval (lift (c.scope.requireSlot node kind) >>= fun e => lift e.getOffset) c s = _
  rw [eval_bind, eval_lift]
  cases c.scope.requireSlot node kind with
  | error e => rfl
  | ok e => exact eval_lift _ c s

@[simp] theorem eval_freshLabel (start : String) (c : Context) (s : Counts) :
    eval (freshLabel start) c s =
      (.ok (start ++ Text.decimal ((s.labels + 1 : Nat) : Int)),
        { s with labels := s.labels + 1 }) := rfl

/-! ### The register pool -/

theorem eval_onPool (work : RegisterPool → Except Fault α × RegisterPool) (c : Context)
    (s : Counts) :
    eval (onPool work) c s = ((work s.pool).1, { s with pool := (work s.pool).2 }) := by
  unfold onPool
  rw [eval_bind_ok (eval_get c s)]
  rcases work s.pool with ⟨result, pool⟩
  simp only
  rw [eval_bind_ok (eval_modify _ c s), eval_lift]

theorem eval_acquire (c : Context) (s : Counts) : eval acquire c s = match s.pool.acquire with
    | .ok (r, pool) => (.ok r, { s with pool := pool })
    | .error f => (.error f, s) := by
  show eval (get >>= fun s => lift s.pool.acquire >>= fun x => _) c s = _
  rw [eval_bind_ok (eval_get c s), eval_bind, eval_lift]
  rcases s.pool.acquire with _ | ⟨r, pool⟩ <;> rfl

theorem eval_release (r : Register) (c : Context) (s : Counts) :
    eval (release r) c s = match s.pool.release r with
    | .ok pool => (.ok (), { s with pool := pool })
    | .error f => (.error f, s) := by
  show eval (get >>= fun s => lift (s.pool.release r) >>= fun x => _) c s = _
  rw [eval_bind_ok (eval_get c s), eval_bind, eval_lift]
  rcases s.pool.release r with _ | pool <;> rfl

/-- A body with registers: they are taken first and given back in reverse order afterwards,
whatever the body answers. -/
theorem eval_withRegisters (n : Nat) (body : List Register → Emit α) (c : Context) (s : Counts) :
    eval (withRegisters n body) c s =
      match s.pool.acquireMany n with
      | (.error f, pool) => (.error f, { s with pool := pool })
      | (.ok rs, pool) =>
        match eval (body rs) c { s with pool := pool } with
        | (result, s') =>
          match s'.pool.releaseMany rs.reverse with
          | (.error f, pool) => (.error f, { s' with pool := pool })
          | (.ok (), pool) => (result, { s' with pool := pool }) := by
  unfold withRegisters
  rw [eval_bind, eval_onPool]
  rcases hacq : s.pool.acquireMany n with ⟨_ | rs, pool⟩
  · rfl
  · simp only
    have hc : ∀ (s₁ : Counts), eval (tryCatch (do return Except.ok (← body rs))
        fun f => return Except.error f : Emit (Except Fault α)) c s₁
        = (.ok (eval (body rs) c s₁).1, (eval (body rs) c s₁).2) := by
      intro s₁
      rw [eval_tryCatch, eval_bind]
      rcases eval (body rs) c s₁ with ⟨_ | a, s₂⟩
      · rfl
      · rfl
    rw [eval_bind_ok (hc _)]
    rcases eval (body rs) c { s with pool := pool } with ⟨result, s'⟩
    simp only
    rw [eval_bind, eval_onPool]
    rcases s'.pool.releaseMany rs.reverse with ⟨_ | u, pool'⟩
    · rfl
    · exact eval_lift _ c _

end MoonBackend.Emit
