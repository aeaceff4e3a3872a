import MoonBackend.Proofs.Emit.Program
import MoonBackend.Proofs.Emit.Steps

/-!
# The register pool in emission

`Holds` says which scratch registers emission holds between two steps. A step that leaves the pool
alone may run with registers; they are given back whatever the step answers.
-/

namespace MoonBackend

def Location.regs (l : Location) : List Register := if l.held then [l.base] else []

theorem Location.length_regs (l : Location) : l.regs.length ≤ 1 := by
  unfold Location.regs
  split <;> simp

namespace Emit

variable {α β : Type}

/-- Of a stock of registers exactly some are held. -/
structure Holds (stock rs : List Register) (s : Counts) : Prop where
  sound : s.pool.Sound
  general : s.pool.general = stock
  held : s.pool.held = rs
  count : s.pool.free.length + rs.length = stock.length

theorem holds_startCounts {config : Config} (hn : config.registers.general.Nodup) :
    Holds (config.registers.general.map Register.mk) [] (startCounts config) :=
  ⟨RegisterPool.sound_ofNumbers hn, RegisterPool.general_ofNumbers hn, rfl, rfl⟩

/-- The step leaves the pool alone, also when it faults. -/
def Still (x : Emit α) : Prop := ∀ c s, (eval x c s).2.pool = s.pool

namespace Still

variable {x : Emit α} {f : α → Emit β}

theorem pure (a : α) : Still (pure a : Emit α) := fun _ _ => rfl

theorem throw (e : Fault) : Still (throw e : Emit α) := fun _ _ => rfl

theorem lift (y : Except Fault α) : Still (lift y) := fun c s => by rw [eval_lift]

theorem bind (hx : Still x) (hf : ∀ a, Still (f a)) : Still (x >>= f) := by
  intro c s
  rw [eval_bind]
  have h := hx c s
  rcases he : eval x c s with ⟨_ | a, s'⟩
  · rw [he] at h
    exact h
  · rw [he] at h
    exact (hf a c s').trans h

theorem look {g : Context → Except Fault α} (he : ∀ c s, eval x c s = (g c, s)) : Still x :=
  fun c s => by rw [he]

theorem ite {p : Prop} [Decidable p] {y : Emit α} (hx : Still x) (hy : Still y) :
    Still (if p then x else y) := by
  split
  · exact hx
  · exact hy

theorem read : Still (read : Emit Context) := fun _ _ => rfl

theorem freshLabel (start : String) : Still (freshLabel start) := fun _ _ => rfl

theorem slotOffset (node : Backing) (kind : EntryKind) : Still (slotOffset node kind) :=
  fun c s => by rw [eval_slotOffset]

theorem ownSlot (kind : EntryKind) : Still (ownSlot kind) := read.bind fun _ => slotOffset _ _

theorem wordSize : Still wordSize := fun _ _ => rfl

theorem stackPointer : Still stackPointer := fun _ _ => rfl

theorem zero : Still zero := fun _ _ => rfl

theorem constant (r : Register) (v : Int64) : Still (constant r v) :=
  zero.bind fun _ => .ite (.pure _) (.ite (.pure _) (.throw _))

theorem load (r : Register) (p : Place) (i : Int64) : Still (load r p i) := by
  cases p with
  | immediate v => exact .ite (constant r v) (.throw _)
  | slot off => exact wordSize.bind fun _ => stackPointer.bind fun _ => .pure _

theorem placeOf (path : Path) (e : Expr) : Still (placeOf path e) := by
  cases e with
  | int v => exact .pure _
  | var name type =>
    refine (look (g := fun c => .ok (c.layout.table.resolveName c.index name))
      (eval_resolve name)).bind fun found => ?_
    split
    · exact (Still.lift _).bind fun _ => .pure _
    · exact (slotOffset _ _).bind fun _ => .pure _
  | _ => exact (slotOffset _ _).bind fun _ => .pure _

theorem countDigits (dst src a t zero : Register) : Still (countDigits dst src a t zero) :=
  (freshLabel _).bind fun _ => (freshLabel _).bind fun _ => (freshLabel _).bind fun _ => .pure _

theorem widen (m width other t : Register) : Still (widen m width other t) :=
  (freshLabel _).bind fun _ => (freshLabel _).bind fun _ => .pure _

theorem floatSum (r : FloatRegisters) (align nonZero done : String) (dst word : Int64)
    (sp zero : Register) : Still (floatSum r align nonZero done dst word sp zero) :=
  (countDigits _ _ _ _ _).bind fun _ => (countDigits _ _ _ _ _).bind fun _ =>
    (widen _ _ _ _).bind fun _ => (widen _ _ _ _).bind fun _ => (freshLabel _).bind fun _ =>
      (freshLabel _).bind fun _ => (countDigits _ _ _ _ _).bind fun _ => .pure _

theorem passReceiver (path : Path) (e recv : Expr) (isNew : Bool) (callee : Signature) (r : Register) :
    Still (passReceiver path e recv isNew callee r) := by
  refine stackPointer.bind fun sp => read.bind fun c => .ite ?_ (.ite ?_ ?_)
  · exact (slotOffset _ _).bind fun _ => .pure _
  · exact (slotOffset _ _).bind fun _ => (Still.lift _).bind fun _ => .pure _
  · refine read.bind fun c => .ite (.throw _) ?_
    exact (ownSlot _).bind fun _ => (Still.lift _).bind fun _ => .pure _

end Still

/-! ### Registers that are held -/

namespace Holds

variable {stock rs : List Register} {s : Counts}

theorem congr {s' : Counts} (h : Holds stock rs s) (hp : s'.pool = s.pool) : Holds stock rs s' :=
  ⟨hp ▸ h.sound, hp ▸ h.general, hp ▸ h.held, hp ▸ h.count⟩

theorem exists_free (h : Holds stock rs s) (hlt : rs.length < stock.length) :
    ∃ r rest, s.pool.free = r :: rest := by
  have := h.count
  cases hf : s.pool.free with
  | nil =>
    rw [hf] at this
    simp at this
    omega
  | cons r rest => exact ⟨r, rest, rfl⟩

theorem acquired (h : Holds stock rs s) {r : Register} {rest : List Register}
    (hf : s.pool.free = r :: rest) :
    Holds stock (r :: rs) { s with pool := { s.pool with free := rest, held := r :: s.pool.held } } := by
  refine ⟨h.sound.of_acquire hf, h.general, by rw [h.held], ?_⟩
  have := h.count
  rw [hf] at this
  simp only [List.length_cons] at this ⊢
  omega

theorem released (h : Holds stock rs s) {r : Register} (hr : r ∈ rs) :
    s.pool.release r
        = .ok { s.pool with free := r :: s.pool.free, held := s.pool.held.erase r }
      ∧ Holds stock (rs.erase r)
        { s with pool := { s.pool with free := r :: s.pool.free, held := s.pool.held.erase r } } := by
  have hm : r ∈ s.pool.held := h.held ▸ hr
  refine ⟨RegisterPool.release_eq_ok_iff.2 ⟨(h.sound.mem_general r).2 (.inr hm), hm, rfl⟩,
    h.sound.of_erase hm, h.general, by rw [h.held], ?_⟩
  have := h.count
  have hlen := List.length_erase_of_mem hr
  have hpos := List.length_pos_of_mem hr
  simp only [List.length_cons]
  omega

end Holds

namespace Triple

variable {F : Fault → Prop} {c : Context} {s : Counts} {stock rs : List Register}

theorem acquire {Q : Register → Counts → Prop} (h : Holds stock rs s)
    (hlt : rs.length < stock.length) (hq : ∀ r pool, r ∈ s.pool.free →
      Holds stock (r :: rs) { s with pool := pool } → Q r { s with pool := pool }) :
    Triple F c s acquire Q := by
  obtain ⟨r, rest, hf⟩ := h.exists_free hlt
  have heval : eval Emit.acquire c s = (.ok r,
      { s with pool := { s.pool with free := rest, held := r :: s.pool.held } }) := by
    show eval (get >>= fun s => Emit.lift s.pool.acquire >>= fun x => _) c s = _
    rw [eval_bind_ok (eval_get c s), h.sound.acquire hf]
    rfl
  exact of_eval heval (hq r _ (by rw [hf]; exact List.mem_cons_self) (h.acquired hf))

theorem release {Q : Unit → Counts → Prop} (h : Holds stock rs s) {r : Register} (hr : r ∈ rs)
    (hq : ∀ pool, Holds stock (rs.erase r) { s with pool := pool } → Q () { s with pool := pool }) :
    Triple F c s (release r) Q := by
  obtain ⟨hrel, hholds⟩ := h.released hr
  have heval : eval (Emit.release r) c s = (.ok (),
      { s with pool := { s.pool with free := r :: s.pool.free, held := s.pool.held.erase r } }) := by
    show eval (get >>= fun s => Emit.lift (s.pool.release r) >>= fun x => _) c s = _
    rw [eval_bind_ok (eval_get c s), hrel]
    rfl
  exact of_eval heval (hq _ hholds)

theorem withRegisters {α : Type} {k : Nat} {body : List Register → Emit α}
    {Q : α → Counts → Prop} (h : Holds stock rs s) (hk : rs.length + k ≤ stock.length)
    (hstill : ∀ rs', Still (body rs'))
    (hb : Triple F c { s with pool := s.pool.taken k } (body (s.pool.free.take k)) fun a s' =>
      Q a { s' with pool := s.pool }) : Triple F c s (withRegisters k body) Q := by
  have hn : k ≤ s.pool.free.length := by
    have := h.count
    omega
  have hp := hstill (s.pool.free.take k) c { s with pool := s.pool.taken k }
  unfold Triple at hb ⊢
  rcases he : eval (body (s.pool.free.take k)) c { s with pool := s.pool.taken k } with ⟨_ | a, s'⟩
  · rw [he] at hb hp
    rw [eval_withRegisters_of_sound h.sound hn he hp]
    exact hb
  · rw [he] at hb hp
    rw [eval_withRegisters_of_sound h.sound hn he hp]
    exact hb

theorem acquire_answer {Q : Register → Counts → Prop} (h : Holds stock rs s)
    (hq : ∀ r pool, r ∈ s.pool.free →
      Holds stock (r :: rs) { s with pool := pool } → Q r { s with pool := pool }) :
    Triple (fun _ => True) c s Emit.acquire Q := by
  by_cases hlt : rs.length < stock.length
  · exact acquire h hlt hq
  · have hcount := h.count
    have hfree : s.pool.free = [] := List.length_eq_zero_iff.1 (by omega)
    have heval : eval Emit.acquire c s = (.error (.poolExhausted s.pool.held.length), s) := by
      show eval (get >>= fun s => Emit.lift s.pool.acquire >>= fun x => _) c s = _
      rw [eval_bind_ok (eval_get c s), RegisterPool.acquire, hfree]
      rfl
    exact of_eval_error heval trivial

theorem withRegisters_answer {α : Type} {k : Nat} {body : List Register → Emit α}
    {Q : α → Counts → Prop} (h : Holds stock rs s) (hstill : ∀ rs', Still (body rs'))
    (hb : k ≤ s.pool.free.length → Triple (fun _ => True) c { s with pool := s.pool.taken k }
      (body (s.pool.free.take k)) fun a s' => Q a { s' with pool := s.pool }) :
    Triple (fun _ => True) c s (Emit.withRegisters k body) Q := by
  have hcount := h.count
  by_cases hk : k ≤ s.pool.free.length
  · exact withRegisters h (by omega) hstill (hb hk)
  · obtain ⟨f, pool, hacq⟩ := s.pool.acquireMany_error (Nat.lt_of_not_le hk)
    have heval : eval (Emit.withRegisters k body) c s = (.error f, { s with pool := pool }) := by
      rw [eval_withRegisters, hacq]
    exact of_eval_error heval trivial

end Triple

end Emit

end MoonBackend
