import Mathlib.Data.List.GetD
import Mathlib.Data.List.Nodup
import MoonBackend.Proofs.Emit.Shape

/-!
# Emission answers code of its shape

Each step is gone through once, in the order in which it is written: if it answers, the code has the
shape that is stated for it, and the registers that are held are the ones that its location keeps.
-/

namespace MoonBackend.Emit

open Code

variable {α β : Type}

/-! ### Rules -/

def Looks (c : Context) (x : Emit α) : Prop := ∃ y, ∀ s, eval x c s = (y, s)

/-- Every answer of the step satisfies `R`. -/
def Answers (c : Context) (x : Emit α) (R : α → Prop) : Prop :=
  ∀ s, Triple (fun _ => True) c s x fun a _ => R a

/-- Every answer of the step satisfies `R`, and it keeps the registers that are held. -/
def Emits (rs : List Register) (c : Context) (x : Emit α) (R : α → Prop) : Prop :=
  ∀ s, Holds c.general rs s → Triple (fun _ => True) c s x fun a s' => R a ∧ Holds c.general rs s'

variable {c : Context} {s : Counts} {rs : List Register} {R : α → Prop} {Q : β → Prop}

namespace Looks

theorem pure (a : α) : Looks c (pure a : Emit α) := ⟨_, fun _ => rfl⟩

theorem throw (e : Fault) : Looks c (throw e : Emit α) := ⟨_, fun _ => rfl⟩

theorem lift (y : Except Fault α) : Looks c (lift y) := ⟨y, eval_lift y c⟩

theorem bind {x : Emit α} {f : α → Emit β} (hx : Looks c x) (hf : ∀ a, Looks c (f a)) :
    Looks c (x >>= f) := by
  obtain ⟨y, hy⟩ := hx
  cases y with
  | error e => exact ⟨.error e, fun s => eval_bind_error (hy s)⟩
  | ok a =>
    obtain ⟨z, hz⟩ := hf a
    exact ⟨z, fun s => (eval_bind_ok (hy s)).trans (hz s)⟩

theorem ite {p : Prop} [Decidable p] {x y : Emit α} (hx : Looks c x) (hy : Looks c y) :
    Looks c (if p then x else y) := by
  split
  · exact hx
  · exact hy

theorem slotOffset (node : Backing) (kind : EntryKind) : Looks c (slotOffset node kind) :=
  ⟨_, eval_slotOffset node kind c⟩

theorem ownSlot (kind : EntryKind) : Looks c (ownSlot kind) :=
  ⟨_, fun s => (eval_bind_ok (eval_read c s)).trans (eval_slotOffset _ kind c s)⟩

theorem words (t : Ty) : Looks c (words t) := by
  refine .ite (.throw _) (.ite (.throw _) (bind ⟨_, eval_read c⟩ fun _ => ?_))
  exact (lift _).bind fun _ => bind ⟨_, eval_wordSize c⟩ fun _ => .ite (.pure _) (.throw _)

theorem placeOf (path : Path) (e : Expr) : Looks c (placeOf path e) := by
  cases e with
  | int v => exact .pure _
  | var name type =>
    refine bind ⟨_, eval_resolve name c⟩ fun found => ?_
    split
    · exact (lift _).bind fun _ => .pure _
    · exact (slotOffset _ _).bind fun _ => .pure _
  | _ => exact (slotOffset _ _).bind fun _ => .pure _

theorem checkOperand (path : Path) (e : Expr) : Looks c (checkOperand path e) := by
  have hplace : ∀ e, Looks c (do let _ ← Emit.placeOf path e) := fun e =>
    (placeOf path e).bind fun _ => .pure _
  cases e with
  | var name type => exact .pure _
  | dot left member type => exact .pure _
  | index base indices type => exact .pure _
  | _ => exact hplace _

end Looks

theorem Triple.find {x : Emit α} {f : α → Emit β} {Q : β → Counts → Prop} (hx : Looks c x)
    (hf : ∀ a, Finds c x a → Triple (fun _ => True) c s (f a) Q) :
    Triple (fun _ => True) c s (x >>= f) Q := by
  obtain ⟨y, hy⟩ := hx
  cases y with
  | error e => exact .of_eval_error (eval_bind_error (hy s)) trivial
  | ok a => exact .look (hy s) (hf a hy)

namespace Answers

theorem pure {a : α} (h : R a) : Answers c (pure a) R := fun _ => h

theorem throw (e : Fault) : Answers c (throw e) R := fun _ => trivial

theorem bind {x : Emit α} {f : α → Emit β} (hx : Answers c x R)
    (hf : ∀ a, R a → Answers c (f a) Q) : Answers c (x >>= f) Q := fun s =>
  (hx s).bind fun a s' h => hf a h s'

theorem look {x : Emit α} {f : α → Emit β} {a : α} (he : Finds c x a) (hf : Answers c (f a) Q) :
    Answers c (x >>= f) Q := fun s => Triple.look (he s) (hf s)

theorem find {x : Emit α} {f : α → Emit β} (hx : Looks c x)
    (hf : ∀ a, Finds c x a → Answers c (f a) Q) : Answers c (x >>= f) Q := fun _ =>
  Triple.find hx fun a ha => hf a ha _

theorem lift {y : Except Fault α} {f : α → Emit β} (hf : ∀ a, y = .ok a → Answers c (f a) Q) :
    Answers c (lift y >>= f) Q := fun s => by
  refine Triple.look_lift (eval_lift y c s) (fun _ _ => trivial) fun a ha => hf a ha s

theorem ite {p : Prop} [Decidable p] {x y : Emit α} (hx : p → Answers c x R)
    (hy : ¬ p → Answers c y R) : Answers c (if p then x else y) R := by
  split
  · exact hx ‹p›
  · exact hy ‹¬ p›

end Answers

namespace Emits

theorem pure {a : α} (h : R a) : Emits rs c (pure a) R := fun _ hs => ⟨h, hs⟩

theorem throw (e : Fault) : Emits rs c (throw e) R := fun _ _ => trivial

theorem of_still {x : Emit α} (hstill : Still x) (hx : Answers c x R) : Emits rs c x R := by
  intro s hs
  have hpool := hstill c s
  have hanswer := hx s
  unfold Triple at hanswer ⊢
  rcases he : eval x c s with ⟨_ | a, s'⟩
  · trivial
  · rw [he] at hpool hanswer
    exact ⟨hanswer, hs.congr hpool⟩

theorem bind {x : Emit α} {f : α → Emit β} (hx : Emits rs c x R)
    (hf : ∀ a, R a → Emits rs c (f a) Q) : Emits rs c (x >>= f) Q := fun s hs =>
  (hx s hs).bind fun a s' h => hf a h.1 s' h.2

theorem mono {P : α → Prop} {x : Emit α} (hx : Emits rs c x P) (h : ∀ a, P a → R a) :
    Emits rs c x R := fun s hs => (hx s hs).mono fun a _ ha => ⟨h a ha.1, ha.2⟩

theorem look {x : Emit α} {f : α → Emit β} {a : α} (he : Finds c x a) (hf : Emits rs c (f a) Q) :
    Emits rs c (x >>= f) Q := fun s hs => Triple.look (he s) (hf s hs)

theorem find {x : Emit α} {f : α → Emit β} (hx : Looks c x)
    (hf : ∀ a, Finds c x a → Emits rs c (f a) Q) : Emits rs c (x >>= f) Q := fun s hs =>
  Triple.find hx fun a ha => hf a ha s hs

theorem lift {y : Except Fault α} {f : α → Emit β} (hf : ∀ a, y = .ok a → Emits rs c (f a) Q) :
    Emits rs c (lift y >>= f) Q := fun s hs => by
  refine Triple.look_lift (eval_lift y c s) (fun _ _ => trivial) fun a ha => hf a ha s hs

theorem frameSize {f : Int64 → Emit β}
    (hf : ∀ size, c.scope.frameSize = .ok size → Emits rs c (f size) Q) :
    Emits rs c (frameSize >>= f) Q := fun s hs => by
  refine Triple.look_lift (eval_frameSize c s) (fun _ _ => trivial) fun a ha => hf a ha s hs

theorem ite {p : Prop} [Decidable p] {x y : Emit α} (hx : p → Emits rs c x R)
    (hy : ¬ p → Emits rs c y R) : Emits rs c (if p then x else y) R := by
  split
  · exact hx ‹p›
  · exact hy ‹¬ p›

theorem freshLabel (start : String) : Emits rs c (freshLabel start) fun _ => True :=
  of_still (.freshLabel start) fun _ => trivial

end Emits

/-! ### Scratch registers -/

theorem Holds.mem_stock {stock rs : List Register} (h : Holds stock rs s) {r : Register}
    (hr : r ∈ s.pool.free) : r ∈ stock ∧ r ∉ rs := by
  refine ⟨h.general ▸ (h.sound.mem_general r).2 (.inl hr), fun hm => ?_⟩
  exact List.disjoint_of_nodup_append h.sound.nodup hr (h.held ▸ hm)

theorem Emits.withRegister {body : Register → Emit α} (hstill : ∀ r, Still (body r))
    (hbody : ∀ r ∈ c.general, r ∉ rs → Answers c (body r) R) : Emits rs c (withRegister body) R := by
  intro s hs
  refine Triple.withRegisters_answer hs (fun _ => hstill _) fun hfree => ?_
  cases hf : s.pool.free with
  | nil => simp [hf] at hfree
  | cons r rest =>
    obtain ⟨hmem, hnot⟩ := hs.mem_stock (r := r) (by rw [hf]; exact List.mem_cons_self)
    exact (hbody r hmem hnot _).mono fun _ _ h => ⟨h, hs.congr rfl⟩

theorem Emits.withRegisters {k : ℕ} {body : List Register → Emit α}
    (hstill : ∀ rs', Still (body rs'))
    (hbody : ∀ rs' : List Register, rs'.length = k → rs'.Nodup → (∀ r ∈ rs', r ∈ c.general) →
      Answers c (body rs') R) : Emits [] c (withRegisters k body) R := by
  intro s hs
  refine Triple.withRegisters_answer hs hstill fun hfree => ?_
  have hlen : (s.pool.free.take k).length = k := by simpa using hfree
  have hnodup : (s.pool.free.take k).Nodup :=
    (List.take_sublist k _).nodup (List.Nodup.of_append_left hs.sound.nodup)
  refine (hbody _ hlen hnodup (fun r hr => ?_) _).mono fun _ _ h => ⟨h, hs.congr rfl⟩
  exact (hs.mem_stock (List.mem_of_mem_take hr)).1

/-! ### Moves -/

theorem answers_constant (r : Register) (v : Int64) : Answers c (constant r v) (Constant c r v) := by
  refine .look (eval_zero c) <| .ite (fun h => .pure ?_) fun _ =>
    .ite (fun h => .pure ?_) fun _ => .throw _
  · simp only [Bool.and_eq_true, decide_eq_true_eq] at h
    exact .short h.1 h.2
  · simp only [Bool.and_eq_true, decide_eq_true_eq] at h
    exact .long h.1 h.2

theorem answers_load (r : Register) (p : Place) (i : Int64) :
    Answers c (load r p i) (Loads c r p i) := by
  cases p with
  | immediate v =>
    refine .ite (fun h => ?_) fun _ => .throw _
    obtain rfl := eq_of_beq h
    exact fun s => (answers_constant r v s).mono fun code _ h => .immediate h
  | slot off => exact .look (eval_wordSize c) <| .look (eval_stackPointer c) <| .pure (.slot off i)

theorem emits_copy (dst src : Location) (n : Int64) :
    Emits rs c (copy dst src n) fun code =>
      ∃ r ∈ c.general, r ∉ rs ∧ code = copyCode c.word r dst src n :=
  .look (eval_wordSize c) <| .withRegister (fun _ => .pure _) fun r hr hn =>
    .pure ⟨r, hr, hn, rfl⟩

theorem emits_store (dst : Location) (p : Place) (n : Int64) :
    Emits rs c (store dst p n) fun code => ∃ r ∈ c.general, r ∉ rs ∧ Stores c r dst p n code := by
  cases p with
  | slot off =>
    refine .look (eval_frame off c) <| (emits_copy dst _ n).mono ?_
    rintro code ⟨r, hr, hn, rfl⟩
    exact ⟨r, hr, hn, .slot off n⟩
  | immediate v =>
    refine .ite (fun _ => .throw _) fun h => ?_
    obtain rfl : n = 1 := by simpa using h
    refine .withRegister (fun r => (Still.constant r v).bind fun _ => .pure _)
      fun r hr hn => ?_
    exact (answers_constant r v).bind fun code h => .pure ⟨r, hr, hn, .immediate h⟩

/-! ### Locations -/

theorem Triple.releaseLocation {F : Fault → Prop} {stock : List Register} {l : Location}
    (rs : List Register) (hs : Holds stock (rs ++ l.regs) s) (hl : ∀ r ∈ l.regs, r ∉ rs) :
    Triple F c s (releaseLocation l) fun _ s' => Holds stock rs s' := by
  unfold Emit.releaseLocation
  unfold Location.regs at hs hl
  split
  · rename_i hheld
    rw [if_pos hheld] at hs hl
    refine Triple.release hs (by simp) fun pool hp => ?_
    rwa [List.erase_append_right _ (hl _ List.mem_cons_self), List.erase_cons_head,
      List.append_nil] at hp
  · rename_i hheld
    rw [if_neg hheld, List.append_nil] at hs
    exact hs

theorem shape_receiverLocation (hs : Holds c.general [] s) :
    Triple (fun _ => True) c s receiverLocation fun a s' =>
      (c.head.isMember = true ∧ ∃ off, Finds c (ownSlot .reference) off ∧
        ∃ r ∈ c.general, a = (plain [.lw r off c.sp], ⟨r, 0, true⟩)) ∧
      Holds c.general a.2.regs s' := by
  refine Triple.look (eval_read c s) <| Triple.ite (fun _ => trivial) fun hm => ?_
  refine Triple.look (eval_read c s) <| Triple.look (eval_read c s) <| Triple.look (eval_read c s) ?_
  refine Triple.look_lift (eval_lift _ c s) (fun _ _ => trivial) fun e he => ?_
  refine Triple.bind (R := fun r s' => r ∈ c.general ∧ Holds c.general [r] s')
    (Triple.acquire_answer hs fun r pool hr h => ⟨(hs.mem_stock hr).1, h⟩) ?_
  rintro r s₁ ⟨hr, h₁⟩
  refine Triple.look_lift (eval_lift _ c s₁) (fun _ _ => trivial) fun off hoff => ?_
  refine Triple.look (eval_stackPointer c s₁) <| Triple.pure ⟨⟨?_, off, fun s => ?_, r, hr, rfl⟩, h₁⟩
  · simpa using hm
  · show eval (read >>= fun c => slotOffset (.function c.index c.head) .reference) c s = _
    rw [eval_bind_ok (eval_read c s), eval_slotOffset, he]
    exact congrArg (·, s) hoff

theorem answers_toMember (l : Location) (className member : String) :
    Answers c (toMember l className member) fun l' => ∃ shift found,
      c.layout.table.memberOffset className member = .ok (shift, found) ∧
        l' = { l with off := l.off + shift } :=
  .look (eval_read c) <| .lift fun a ha => .pure ⟨a.1, a.2, ha, rfl⟩

theorem Still.toMember (l : Location) (className member : String) :
    Still (toMember l className member) := Still.read.bind fun _ => (Still.lift _).bind fun _ => .pure _

theorem emits_accumulateIndex (idx : Register) (later : List (Int64 × Path × Expr)) :
    Emits (idx :: rs) c (accumulateIndex idx later) (Accumulates c rs idx later) := by
  induction later with
  | nil => exact .pure .nil
  | cons entry rest ih =>
    obtain ⟨extent, path, e⟩ := entry
    have hadd : Emits (idx :: rs) c (withRegister fun r => do
        let code ← load r (← placeOf path e) 0
        return code ++ plain [.reg3 .add idx idx r]) fun add => ∃ r ∈ c.general, r ∉ idx :: rs ∧
          ∃ p code, Finds c (placeOf path e) p ∧ Loads c r p 0 code
            ∧ add = code ++ plain [.reg3 .add idx idx r] := by
      refine .withRegister (fun r => ?_) fun r hr hn => ?_
      · exact (Still.placeOf path e).bind fun _ => (Still.load r _ 0).bind fun _ => .pure _
      · refine .find (.placeOf path e) fun p hp => (answers_load r p 0).bind fun code h => ?_
        exact .pure ⟨r, hr, hn, p, code, hp, h, rfl⟩
    refine hadd.bind fun add ⟨r, hr, hn, p, code, hp, hload, hadd⟩ => ih.bind fun more hmore => ?_
    subst hadd
    exact .pure (.cons hr hn hp hload hmore)

theorem answers_firstIndex (path : Path) (idx : Register) (indices : List Expr) :
    Answers c (firstIndex path idx indices) (StartsIndex c path idx indices) := by
  cases indices with
  | nil => exact .pure .nil
  | cons e es =>
    refine .find (.placeOf _ e) fun p hp s => (answers_load idx p 0 s).mono fun code _ h => ?_
    exact .cons hp h

theorem Still.firstIndex (path : Path) (idx : Register) (indices : List Expr) :
    Still (firstIndex path idx indices) := by
  cases indices with
  | nil => exact .pure _
  | cons e es => exact (Still.placeOf _ e).bind fun p => .load idx p 0

theorem shape_indexLocation (path : Path) (base : Location) (dims : List Int64) (indices : List Expr)
    (elemSize : Int64) (hs : Holds c.general base.regs s) :
    Triple (fun _ => True) c s (indexLocation path base dims indices elemSize) fun a s' =>
      (∃ idx ∈ c.general, idx ∉ base.regs ∧ ∃ first rest, StartsIndex c path idx indices first ∧
        Accumulates c base.regs idx (laterIndices path dims indices) rest ∧
        a = (first ++ rest ++ plain [.imm .muli idx idx elemSize, .reg3 .sub idx base.base idx],
          ⟨idx, base.off, true⟩)) ∧ Holds c.general a.2.regs s' := by
  rw [indexLocation_eq]
  refine Triple.bind (R := fun idx s' => (idx ∈ c.general ∧ idx ∉ base.regs)
      ∧ Holds c.general (idx :: base.regs) s')
    (Triple.acquire_answer hs fun r pool hr h => ⟨hs.mem_stock hr, h⟩) ?_
  rintro idx s₁ ⟨⟨hidx, hn⟩, h₁⟩
  refine (Emits.of_still (.firstIndex path idx indices) (answers_firstIndex path idx indices) s₁
    h₁).bind fun first s₂ ⟨hfirst, h₂⟩ => ?_
  refine (emits_accumulateIndex idx (laterIndices path dims indices) s₂ h₂).bind
    fun rest s₃ ⟨hrest, h₃⟩ => ?_
  refine (Triple.releaseLocation [idx] h₃ fun r hr he => ?_).bind fun _ s₄ h₄ => ?_
  · rw [List.mem_singleton.1 he] at hr
    exact hn hr
  · exact Triple.pure ⟨⟨idx, hidx, hn, first, rest, hfirst, hrest, rfl⟩, h₄⟩

theorem shape_locate (path : Path) (e : Expr) (hs : Holds c.general [] s) :
    Triple (fun _ => True) c s (locate path e) fun a s' =>
      Locates c path e a.1 a.2 ∧ Holds c.general a.2.regs s' := by
  induction path, e using locate.induct generalizing s with
  | case1 path name type =>
    rw [locate]
    refine Triple.look (eval_resolve name c s) ?_
    split
    · trivial
    · rename_i l hfound
      refine Triple.look_lift (eval_lift _ c s) (fun _ _ => trivial) fun off hoff => ?_
      exact Triple.look (eval_frame off c s) ⟨.variable hfound hoff, hs⟩
    · rename_i l hfound
      refine (shape_receiverLocation hs).bind fun a s₁ ⟨⟨hm, off, hoff, r, hr, ha⟩, h₁⟩ => ?_
      subst ha
      refine Triple.look (eval_read c s₁) ?_
      refine (Emits.of_still (.toMember _ _ _) (answers_toMember _ _ _) s₁ h₁).bind ?_
      rintro l' s₂ ⟨⟨shift, found, hshift, rfl⟩, h₂⟩
      exact ⟨.member hfound hm hoff hr hshift, h₂⟩
  | case2 path left member type ih =>
    rw [locate]
    refine (ih hs).bind fun a s₁ ⟨hleft, h₁⟩ => ?_
    refine (Emits.of_still (.toMember _ _ _) (answers_toMember _ _ _) s₁ h₁).bind ?_
    rintro l' s₂ ⟨⟨shift, found, hshift, rfl⟩, h₂⟩
    exact ⟨.dot hleft hshift, h₂⟩
  | case3 path base indices type ih =>
    rw [locate]
    refine Triple.look (eval_read c s) ?_
    refine Triple.look_lift (eval_lift _ c s) (fun _ _ => trivial) fun size hsize => ?_
    refine (ih hs).bind fun a s₁ ⟨hbase, h₁⟩ => ?_
    refine (shape_indexLocation path a.2 _ _ _ h₁).bind ?_
    rintro b s₂ ⟨⟨idx, hidx, hn, first, rest, hfirst, hrest, rfl⟩, h₂⟩
    exact ⟨.index hsize hbase hidx hn hfirst hrest, h₂⟩
  | case4 path e hv hd hi =>
    rw [locate]
    · refine Triple.find (.placeOf path e) fun p hp => ?_
      exact Triple.look (eval_frame _ c s) ⟨.value hv hd hi hp, hs⟩
    · exact hv
    · exact hd
    · exact hi

theorem emits_materialize (path : Path) (e : Expr) :
    Emits [] c (materialize path e) (Materializes c path e) := by
  intro s hs
  refine (shape_locate path e hs).bind fun a s₁ ⟨hloc, h₁⟩ => ?_
  refine Triple.find (.slotOffset _ _) fun off hoff => Triple.look (eval_frame off c s₁) ?_
  refine Triple.find (.words _) fun n hn => ?_
  refine (emits_copy _ _ n s₁ h₁).bind ?_
  rintro move s₂ ⟨⟨r, hr, hnot, rfl⟩, h₂⟩
  refine (Triple.releaseLocation [] h₂ fun _ _ h => by cases h).bind fun _ s₃ h₃ => ?_
  exact Triple.pure ⟨.intro hloc hoff hn hr hnot, h₃⟩

/-! ### Operators -/

theorem emits_unary (path : Path) (e : Expr) (op : UnaryOp) (t : Ty) (src : Place) :
    Emits [] c (unary path e op t src) (Unary c path e op t src) := by
  refine .find (.slotOffset _ _) fun off hoff => .look (eval_stackPointer c) <|
    .look (eval_zero c) <| .look (eval_wordSize c) ?_
  refine .ite (fun hf => .withRegister (fun r => ?_) fun r hr _ => ?_) fun _ =>
    .ite (fun hi => .withRegister (fun r => ?_) fun r hr _ => ?_) fun _ => .throw _
  · exact (Still.load r src 0).bind fun _ => (Still.load r src 1).bind fun _ => .pure _
  · rw [Bool.and_eq_true, bne_iff_ne] at hf
    refine (answers_load r src 0).bind fun mantissa hm => (answers_load r src 1).bind fun exponent he =>
      .pure (.float hf.1 hf.2 hoff hr hm he)
  · exact (Still.load r src 0).bind fun _ => .pure _
  · refine (answers_load r src 0).bind fun value hv => .pure ?_
    cases op <;> exact .integer hi hoff hr hv

theorem answers_floatSum (f : FloatRegisters) (align nonZero done : String) (dst : Int64) :
    Answers c (floatSum f align nonZero done dst c.word c.sp c.nought) fun sum =>
      ∃ labels, sum = sumCode f labels dst c.word c.sp c.nought := fun s => by
  obtain ⟨labels, s', heval, -⟩ := eval_floatSum f align nonZero done dst c.word c.sp c.nought c s
  exact .of_eval heval ⟨labels, rfl⟩

theorem emits_floatAddSub {path : Path} {e : Expr} {op : BinaryOp} {t : Ty} (l r : Place)
    (ht : t.base = .float) (hop : op = .add ∨ op = .sub) :
    Emits [] c (floatAddSub path e op l r) (Binary c path e op t l r) := by
  refine .find (.slotOffset _ _) fun dst hdst => .look (eval_wordSize c) <|
    .look (eval_stackPointer c) <| .look (eval_zero c) ?_
  refine (Emits.freshLabel _).bind fun align _ => (Emits.freshLabel _).bind fun nonZero _ =>
    (Emits.freshLabel _).bind fun done _ => .look (eval_comment _ c) ?_
  refine Emits.bind (R := fun body => Binary c path e op t l r (c.note ("float " ++ e.text) ++ body))
    (.withRegisters (fun rs => ?_) fun rs hlen _ hrs => ?_) fun body h => .pure h
  · exact (Still.load _ l 0).bind fun _ => (Still.load _ l 1).bind fun _ =>
      (Still.load _ r 0).bind fun _ => (Still.load _ r 1).bind fun _ =>
        (Still.floatSum _ _ _ _ _ _ _ _).bind fun _ => .pure _
  · refine (answers_load _ l 0).bind fun _ h1 => (answers_load _ l 1).bind fun _ h2 =>
      (answers_load _ r 0).bind fun _ h3 => (answers_load _ r 1).bind fun _ h4 => ?_
    refine (answers_floatSum _ align nonZero done dst).bind ?_
    rintro _ ⟨labels, rfl⟩
    refine .pure (.float ht hop hdst (fun x hx => hrs x ?_) h1 h2 h3 h4)
    have hmem : ∀ i < 8, rs.getD i Item.unused ∈ rs := fun i hi => by
      rw [List.getD_eq_getElem _ _ (hlen ▸ hi)]
      exact List.getElem_mem _
    simp only [List.mem_cons, List.not_mem_nil, or_false] at hx
    rcases hx with rfl | rfl | rfl | rfl | rfl | rfl | rfl | rfl <;> exact hmem _ (by decide)

theorem emits_floatLiteral (path : Path) (text : String) (use : Use) :
    Emits [] c (floatLiteral path text) (Evaluates c use path (.float text)) := by
  unfold floatLiteral
  split
  · exact .throw _
  · rename_i v hv
    refine .find (.slotOffset _ _) fun off hoff => .look (eval_wordSize c) <|
      .look (eval_stackPointer c) ?_
    refine .withRegister (fun r => ?_) fun r hr _ => ?_
    · exact (Still.constant r _).bind fun _ => (Still.constant r _).bind fun _ => .pure _
    · exact (answers_constant r _).bind fun _ hm => (answers_constant r _).bind fun _ he =>
        .pure (.float hv hoff hr hm he)

theorem emits_binary (path : Path) (e : Expr) (op : BinaryOp) (t : Ty) (l r : Place) :
    Emits [] c (binary path e op t l r) (Binary c path e op t l r) := by
  refine .ite (fun ht => .ite (fun hop => ?_) fun _ => .throw _) fun _ =>
    .ite (fun _ => .throw _) fun hi => ?_
  · exact emits_floatAddSub l r ht (by simpa using hop)
  · refine .find (.slotOffset _ _) fun off hoff => .look (eval_stackPointer c) <|
      .look (eval_zero c) ?_
    refine .withRegisters (fun rs => ?_) fun rs hlen hnodup hrs => ?_
    · exact (Still.load _ l 0).bind fun _ => (Still.load _ r 0).bind fun _ => .pure _
    · obtain ⟨a, b, rfl⟩ := List.length_eq_two.1 hlen
      have hne : a ≠ b := by simpa using hnodup
      exact (answers_load _ l 0).bind fun _ hl => (answers_load _ r 0).bind fun _ hr =>
        .pure (.integer (by simpa using hi) hoff (hrs a (by simp)) (hrs b (by simp)) hne hl hr)

/-! ### Calls -/

theorem emits_saveReceiver (path : Path) (recv : Expr) :
    Emits [] c (saveReceiver path recv) (SavesReceiver c path recv) := by
  refine .ite (fun hm => .pure (.none hm)) fun hm => .look (eval_read c) <| .lift fun slot hslot => ?_
  intro s hs
  refine (shape_locate path recv hs).bind fun a s₁ ⟨hloc, h₁⟩ => ?_
  refine Triple.bind (R := fun b s' => Addresses c a.2 b.1 b.2 ∧ Holds c.general [b.2] s') ?_
    fun b s₂ ⟨haddr, h₂⟩ => ?_
  · unfold Location.regs at h₁
    refine Triple.ite (fun hheld => ?_) fun hheld => ?_
    · rw [if_pos hheld] at h₁
      exact ⟨.held hheld, h₁⟩
    · rw [if_neg hheld] at h₁
      refine Triple.bind (R := fun r s' => r ∈ c.general ∧ Holds c.general [r] s')
        (Triple.acquire_answer h₁ fun r pool hr h => ⟨(h₁.mem_stock hr).1, h⟩)
        fun r s₂ ⟨hr, h₂⟩ => ?_
      exact ⟨.free (by simpa using hheld) hr, h₂⟩
  · refine Triple.look_lift (eval_lift _ c s₂) (fun _ _ => trivial) fun off hoff => ?_
    refine Triple.bind (R := fun _ s' => Holds c.general [] s')
      (Triple.release h₂ List.mem_cons_self fun pool hp => by simpa using hp) fun _ s₃ h₃ => ?_
    refine Triple.look (eval_stackPointer c s₃) <| Triple.pure ⟨?_, h₃⟩
    refine .some (by simpa using hm) (fun s => ?_) hloc haddr
    rw [eval_slotOffset, hslot]
    exact congrArg (·, s) hoff

theorem emits_passArguments (size : Int64) (args : List (Entry × Place)) :
    Emits [] c (passArguments size args) (PassesArguments c size args) := by
  induction args with
  | nil => exact .pure .nil
  | cons pair rest ih =>
    obtain ⟨param, arg⟩ := pair
    refine .lift fun off hoff => .look (eval_frame _ c) <| .find (.words _) fun n hn => ?_
    refine (emits_store _ arg n).bind fun code ⟨r, hr, _, hcode⟩ => ?_
    exact ih.bind fun more hmore => .pure (.cons hoff hn hr hcode hmore)

theorem answers_passReceiver (path : Path) (e recv : Expr) (isNew : Bool) (callee : Signature)
    (r : Register) :
    Answers c (passReceiver path e recv isNew callee r) (PassesReceiver c path e recv isNew callee r) := by
  refine .look (eval_stackPointer c) <| .look (eval_read c) <| .ite (fun hnew => ?_) fun hnew =>
    .ite (fun hr => ?_) fun hr => ?_
  · exact .find (.slotOffset _ _) fun off hoff => .pure (.new hnew hoff)
  · refine .find (.slotOffset _ _) fun off hoff => .lift fun shift hshift => ?_
    exact .pure (.on (by simpa using hnew) (by simpa using hr) hoff hshift)
  · refine .look (eval_read c) <| .ite (fun _ => .throw _) fun hm => ?_
    refine .find (.ownSlot _) fun off hoff => .lift fun shift hshift => ?_
    exact .pure (.own (by simpa using hnew) (by simpa using hr) (by simpa using hm) hoff hshift)

theorem emits_placeReceiver (path : Path) (e recv : Expr) (isNew : Bool) (target : Nat)
    (callee : Signature) (scope : Scope) (size : Int64) :
    Emits [] c (placeReceiver path e recv isNew target callee scope size c.sp)
      (PlacesReceiver c path e recv isNew target callee scope size) := by
  refine .ite (fun hm => .lift fun slot hslot => ?_) fun hm => .pure (.free (by simpa using hm))
  refine .withRegister (fun r => ?_) fun r hr _ => ?_
  · exact (Still.passReceiver _ _ _ _ _ r).bind fun _ => (Still.lift _).bind fun _ => .pure _
  · refine (answers_passReceiver path e recv isNew callee r).bind fun code hcode => ?_
    exact .lift fun off hoff => .pure (.member hm hslot hoff hr hcode)

theorem emits_fetchResult (path : Path) (e : Expr) (isNew : Bool) (callee : Signature) :
    Emits [] c (fetchResult path e isNew callee) (FetchesResult c path e isNew callee) := by
  refine .ite (fun hv => ?_) fun hv => .pure (.none ?_)
  · rw [Bool.and_eq_true, Bool.not_eq_true', bne_iff_ne] at hv
    refine .find (.slotOffset _ _) fun off hoff => .look (eval_frame off c) <|
      .look (eval_resultRegister c) <| .find (.words _) fun n hn => ?_
    refine (emits_copy _ _ n).mono ?_
    rintro code ⟨r, hr, -, rfl⟩
    exact .some hv.1 hv.2 hoff hn hr
  · simp only [Bool.and_eq_true, Bool.not_eq_true', bne_iff_ne] at hv
    by_cases hnew : isNew = true
    · exact .inl hnew
    · exact .inr (by_contra fun h => hv ⟨by simpa using hnew, h⟩)

theorem emits_callSequence (path : Path) (e recv : Expr) (isNew : Bool) (target : Nat)
    (args : List Place) :
    Emits [] c (callSequence path e recv isNew target args)
      (Calls c path e recv isNew target args) := by
  intro s hs
  cases hscope : c.layout.table.functions[target]? with
  | none => exact Triple.of_eval_error (eval_callSequence_unresolved (.inl hscope) s) trivial
  | some scope =>
    cases hf : c.layout.table.program.functions[target]? with
    | none => exact Triple.of_eval_error (eval_callSequence_unresolved (.inr hf) s) trivial
    | some callee =>
      refine Triple.congr (eval_callSequence hscope hf s) ?_
      refine Triple.look (eval_stackPointer c s) <| Triple.look (eval_comment _ c s) ?_
      refine (emits_saveReceiver _ recv s hs).bind fun saved s₁ ⟨hsaved, h₁⟩ => ?_
      refine Triple.look_lift (eval_frameSize c s₁) (fun _ _ => trivial) fun size hsize => ?_
      refine Triple.ite (fun _ => trivial) fun hlen => ?_
      refine (emits_passArguments size _ s₁ h₁).bind fun passed s₂ ⟨hpassed, h₂⟩ => ?_
      refine (emits_placeReceiver path e recv isNew target _ scope size s₂ h₂).bind
        fun receiver s₃ ⟨hreceiver, h₃⟩ => Triple.look (eval_link c s₃) ?_
      refine (emits_fetchResult path e isNew _ s₃ h₃).bind fun result s₄ ⟨hresult, h₄⟩ =>
        Triple.pure ⟨?_, h₄⟩
      exact .intro hscope hf hsize (by simpa using hlen) hsaved hpassed hreceiver hresult

/-! ### Expressions -/

mutual

theorem emits_evaluate (use : Use) (path : Path) :
    (e : Expr) → Emits [] c (evaluate use path e) (Evaluates c use path e)
  | .missing => .throw _
  | .int v => .pure (.int v)
  | .float text => emits_floatLiteral path text use
  | .var name type => by
    rw [evaluate]
    refine .ite (fun huse => .pure (huse ▸ .variable name type)) fun huse =>
      .look (eval_resolve name c) ?_
    cases use with
    | location => exact absurd rfl huse
    | value =>
      split
      · exact .throw _
      · exact .pure (.own ‹_›)
      · exact (emits_materialize path _).mono fun code h => .member ‹_› h
  | .dot left member type => by
    rw [evaluate]
    refine (emits_evaluate .location (0 :: path) left).bind fun code hcode => ?_
    refine .find (.checkOperand _ _) fun _ _ => .ite (fun huse => .pure (huse ▸ .dot hcode))
      fun huse => ?_
    cases use with
    | location => exact absurd rfl huse
    | value => exact (emits_materialize path _).bind fun move h => .pure (.dotValue hcode h)
  | .index base indices type => by
    rw [evaluate]
    refine (emits_evaluate .location (0 :: path) base).bind fun code hcode => ?_
    refine .find (.checkOperand _ _) fun _ _ => ?_
    refine (emits_evaluateAll path 1 indices).bind fun a ha => ?_
    refine .ite (fun huse => .pure (huse ▸ .index hcode ha)) fun huse => ?_
    cases use with
    | location => exact absurd rfl huse
    | value =>
      exact (emits_materialize path _).bind fun move h => .pure (.indexValue hcode ha h)
  | .unary op operand type => by
    rw [evaluate]
    refine (emits_evaluate .value (0 :: path) operand).bind fun code hcode => ?_
    refine .find (.placeOf _ _) fun src hsrc => ?_
    exact (emits_unary path _ op _ src).bind fun more hmore => .pure (.unary hcode hsrc hmore)
  | .binary op left right type => by
    rw [evaluate]
    refine (emits_evaluate .value (0 :: path) left).bind fun first hfirst => ?_
    refine .find (.placeOf _ _) fun l hl => ?_
    refine (emits_evaluate .value (1 :: path) right).bind fun second hsecond => ?_
    refine .find (.placeOf _ _) fun r hr => ?_
    exact (emits_binary path _ op _ l r).bind fun more hmore =>
      .pure (.binary hfirst hl hsecond hr hmore)
  | .call recv name args isNew type none => by
    rw [evaluate]
    exact .throw _
  | .call recv name args isNew type (some target) => by
    have hrecv : Emits [] c (receiverOperands path recv) fun before =>
        (recv.isMissing = true ∧ before = []) ∨
          (recv.isMissing = false ∧ Evaluates c .location (0 :: path) recv before) := by
      refine .ite (fun hm => .pure (.inl ⟨hm, rfl⟩)) fun hm => ?_
      refine (emits_evaluate .location (0 :: path) recv).bind fun before hbefore => ?_
      exact .find (.checkOperand _ _) fun _ _ => .pure (.inr ⟨by simpa using hm, hbefore⟩)
    rw [evaluate_call]
    refine hrecv.bind fun before hbefore => (emits_evaluateAll path 1 args).bind fun a ha => ?_
    refine (emits_callSequence path _ recv isNew target a.2).bind fun code hcode => .pure ?_
    rcases hbefore with ⟨hm, rfl⟩ | ⟨hm, hbefore⟩
    · exact .call hm ha hcode
    · exact .callOn hm hbefore ha hcode

theorem emits_evaluateAll (path : Path) (i : Nat) :
    (es : List Expr) → Emits [] c (evaluateAll path i es) fun a => EvaluatesAll c path i es a.1 a.2
  | [] => .pure .nil
  | e :: es => by
    rw [evaluateAll]
    refine (emits_evaluate .value (i :: path) e).bind fun code hcode => ?_
    refine .find (.placeOf _ _) fun p hp => ?_
    exact (emits_evaluateAll path (i + 1) es).bind fun a ha => .pure (.cons hcode hp ha)

end

theorem emits_value (path : Path) (e : Expr) :
    Emits [] c (value path e) fun a => Evaluates c .value path e a.1 ∧ Finds c (placeOf path e) a.2 :=
  (emits_evaluate .value path e).bind fun _ hcode => .find (.placeOf path e) fun _ hp =>
    .pure ⟨hcode, hp⟩

theorem emits_operands (path : Path) (e : Expr) :
    Emits [] c (operands path e) (Evaluates c .location path e) :=
  (emits_evaluate .location path e).bind fun _ hcode =>
    .find (.checkOperand path e) fun _ _ => .pure hcode

/-! ### Statements -/

theorem emits_branchIfZero (path : Path) (cond : Expr) (label : String) :
    Emits [] c (branchIfZero path cond label) (Tests c path cond label) := by
  refine (emits_value path cond).bind fun a ⟨hcode, hp⟩ => ?_
  refine Emits.bind (R := fun test => Tests c path cond label (a.1 ++ test))
    (.withRegister (fun r => ?_) fun r hr _ => ?_) fun test h => .pure h
  · exact (Still.load r _ 0).bind fun _ => .pure _
  · exact (answers_load r a.2 0).bind fun load h => .pure (.intro hcode hp hr h)

theorem emits_declare (path : Path) (d : VarDecl) (init : Expr) :
    Emits [] c (declare path d init) (Runs c path (.declare d init)) := by
  refine .ite (fun hm => .pure (.declare hm)) fun hm => .look (eval_comment _ c) ?_
  refine (emits_value _ init).bind fun a ⟨hcode, hp⟩ => .look (eval_read c) ?_
  split
  · exact .throw _
  · rename_i e he
    refine .lift fun off hoff => .look (eval_frame off c) <| .find (.words _) fun n hn => ?_
    refine (emits_store _ _ n).bind fun move ⟨r, hr, _, hmove⟩ => .pure ?_
    exact .define (by simpa using hm) hcode hp he hoff hn hr hmove

theorem emits_assign (path : Path) (target source : Expr) :
    Emits [] c (assign path target source) (Runs c path (.assign target source)) := by
  refine .look (eval_comment _ c) <| (emits_operands _ target).bind fun before hbefore => ?_
  refine (emits_value _ source).bind fun a ⟨hcode, hp⟩ => ?_
  intro s hs
  refine (shape_locate _ target hs).bind fun b s₁ ⟨hloc, h₁⟩ => ?_
  refine Triple.find (.words _) fun n hn => ?_
  refine (emits_store _ _ n s₁ h₁).bind fun move s₂ ⟨⟨r, hr, hnot, hmove⟩, h₂⟩ => ?_
  refine (Triple.releaseLocation [] h₂ fun _ _ h => by cases h).bind fun _ s₃ h₃ => ?_
  exact Triple.pure ⟨.assign hbefore hcode hp hloc hn hr hnot hmove, h₃⟩

theorem emits_ret (path : Path) (result : Expr) :
    Emits [] c (ret path result) (Runs c path (.ret result)) := by
  refine .look (eval_read c) <| .ite (fun hm => .pure (.leave hm)) fun hm =>
    .look (eval_comment _ c) <| .ite (fun _ => .throw _) fun hv => ?_
  refine (emits_value _ result).bind fun a ⟨hcode, hp⟩ => ?_
  refine .find (.ownSlot _) fun off hoff => .look (eval_frame off c) <| .find (.words _) fun n hn => ?_
  refine (emits_store _ _ n).bind fun move ⟨r, hr, _, hmove⟩ => .pure ?_
  exact .ret (by simpa using hm) hv hcode hp hoff hn hr hmove

theorem emits_printWord (p : Place) (i : Int64) :
    Emits [] c (printWord p i) (PrintsWord c p i) := by
  refine .look (eval_read c) <| .frameSize fun size hsize => ?_
  refine .look (eval_stackPointer c) <| .look (eval_zero c) <| .look (eval_link c) <|
    .look (eval_resultRegister c) ?_
  refine .withRegister (fun r => ?_) fun r hr _ => ?_
  · exact (Still.load r p i).bind fun _ => .pure _
  · exact (answers_load r p i).bind fun value h => .pure (.intro hsize hr h)

theorem emits_printBytes (bytes : List UInt8) :
    Emits [] c (printBytes bytes) (PrintsBytes c bytes) :=
  .look (eval_zero c) <| .withRegister (fun _ => .pure _) fun _ hr _ =>
    .pure (.intro hr)

theorem emits_write (path : Path) (e : Expr) :
    Emits [] c (write path e) fun code => ∃ before printed newline p, Evaluates c .value path e before
      ∧ Finds c (placeOf path e) p ∧ PrintsValue c e.type p printed ∧ EndsLine c newline
      ∧ code = before ++ printed ++ newline := by
  rw [write_eq]
  refine .look (eval_read c) <| (emits_value path e).bind fun a ⟨hcode, hp⟩ => ?_
  have hprinted : Emits [] c (printValue e.type a.2 c.config.emit) (PrintsValue c e.type a.2) := by
    refine .ite (fun hi => ?_) fun _ => .ite (fun hf => ?_) fun _ => .throw _
    · exact (emits_printWord a.2 0).mono fun _ h => .integer hi h
    · exact (emits_printWord a.2 0).bind fun _ hm => (emits_printBytes _).bind
        fun _ hs => (emits_printWord a.2 1).bind fun _ he => .pure (.float hf hm hs he)
  have hnewline : Emits [] c (endLine c.config.emit) (EndsLine c) :=
    .ite (fun _ => (emits_printBytes [10]).mono fun _ h => .some h) fun _ => .pure .none
  exact hprinted.bind fun printed h => hnewline.bind fun newline hn =>
    .pure ⟨_, printed, newline, _, hcode, hp, h, hn, rfl⟩

theorem emits_read (path : Path) (target : Expr) :
    Emits [] c (stmt path (.read target)) (Runs c path (.read target)) := by
  rw [stmt]
  refine .look (eval_comment _ c) ?_
  refine Emits.bind (R := fun code => Runs c path (.read target)
    (c.note ("read(" ++ target.text ++ ")") ++ code)) ?_ fun code h => .pure h
  refine .ite (fun _ => .throw _) fun hi => (emits_operands _ target).bind
    fun before hbefore => .look (eval_read c) <| .frameSize fun size hsize => ?_
  refine .look (eval_stackPointer c) <| .look (eval_zero c) <| .look (eval_link c) ?_
  refine Emits.bind (R := fun calls => ∃ r ∈ c.general, calls = readCode c size r)
    (.withRegister (fun _ => .pure _) fun r hr _ => .pure ⟨r, hr, rfl⟩) ?_
  rintro _ ⟨r, hr, rfl⟩
  intro s hs
  refine (shape_locate _ target hs).bind fun a s₁ hlocated => ?_
  obtain ⟨hloc, h₁⟩ := hlocated
  refine (Triple.releaseLocation [] h₁ fun _ _ h => by cases h).bind fun _ s₂ h₂ => ?_
  exact Triple.look (eval_resultRegister c s₂) <|
    Triple.pure ⟨.read (by simpa using hi) hbefore hsize hr hloc, h₂⟩

theorem emits_checkRegisters (st : Stmt) :
    Emits rs c (checkRegisters st) fun _ => True := fun s hs =>
  Triple.look (eval_get c s) <| Triple.ite (fun _ => trivial) fun _ => ⟨trivial, hs⟩

theorem emits_enterBlock : Emits rs c enterBlock fun _ => True := fun _ hs => ⟨trivial, hs.congr rfl⟩

mutual

theorem emits_stmt (path : Path) : (st : Stmt) → Emits [] c (stmt path st) (Runs c path st)
  | .declare d init => emits_declare path d init
  | .assign target source => emits_assign path target source
  | .when cond body => by
    rw [stmt]
    refine (Emits.freshLabel _).bind fun elseLabel _ => (Emits.freshLabel _).bind fun endLabel _ => ?_
    refine .look (eval_comment _ c) ?_
    refine (emits_branchIfZero _ cond elseLabel).bind fun test htest => ?_
    refine emits_enterBlock.bind fun _ _ => ?_
    exact (emits_stmts (1 :: path) 0 body).bind fun code hcode => .pure (.when htest hcode)
  | .branch cond yes no => by
    rw [stmt]
    refine (Emits.freshLabel _).bind fun elseLabel _ => (Emits.freshLabel _).bind fun endLabel _ => ?_
    refine .look (eval_comment _ c) ?_
    refine (emits_branchIfZero _ cond elseLabel).bind fun test htest => ?_
    refine emits_enterBlock.bind fun _ _ => ?_
    refine (emits_stmts (1 :: path) 0 yes).bind fun yesCode hyes => emits_enterBlock.bind fun _ _ => ?_
    exact (emits_stmts (2 :: path) 0 no).bind fun noCode hno => .pure (.branch htest hyes hno)
  | .loop cond body => by
    rw [stmt]
    refine (Emits.freshLabel _).bind fun top _ => (Emits.freshLabel _).bind fun stop _ => ?_
    refine .look (eval_comment _ c) ?_
    refine (emits_branchIfZero _ cond stop).bind fun test htest => ?_
    refine emits_enterBlock.bind fun _ _ => ?_
    exact (emits_stmts (1 :: path) 0 body).bind fun code hcode => .pure (.loop htest hcode)
  | .write e => by
    rw [stmt]
    refine .look (eval_comment _ c) ?_
    refine (emits_write _ e).bind fun code ⟨_, _, _, p, hcode, hp, hprinted, hnewline, he⟩ => ?_
    subst he
    exact .pure (.write hcode hp hprinted hnewline)
  | .read target => emits_read path target
  | .ret result => emits_ret path result
  | .call e => (emits_evaluate .value (0 :: path) e).mono fun _ h => .call h

theorem emits_stmts (path : Path) (i : Nat) :
    (sts : List Stmt) → Emits [] c (stmts path i sts) (RunsAll c path i sts)
  | [] => .pure .nil
  | st :: sts => by
    rw [stmts]
    refine (emits_stmt (i :: path) st).bind fun code hcode => ?_
    refine (emits_checkRegisters st).bind fun _ _ => ?_
    exact (emits_stmts path (i + 1) sts).bind fun more hmore => .pure (.cons hcode hmore)

end

/-! ### Functions -/

theorem Finds.unique {x : Emit α} {a b : α} (ha : Finds c x a) (hb : Finds c x b) : a = b := by
  have h := (ha (startCounts c.config)).symm.trans (hb (startCounts c.config))
  exact Except.ok.inj (congrArg Prod.fst h)

theorem emits_functionStart (tag : String) (isEntry : Bool) :
    Emits [] c (functionStart tag isEntry c.sp c.link) fun code =>
      (isEntry = true ∧ ∃ size, c.scope.frameSize = .ok size
        ∧ code = c.note ("frame " ++ Text.decimal size.toInt))
      ∨ (isEntry = false ∧ ∃ off, Finds c (ownSlot .returnAddress) off
        ∧ code = [.labeled tag (.sw off c.sp c.link)]) := by
  refine .ite (fun he => .frameSize fun size hsize s hs => ?_) fun he =>
    .find (.ownSlot _) fun off hoff => .pure (.inr ⟨by simpa using he, off, hoff, rfl⟩)
  exact ⟨.inl ⟨he, size, hsize, rfl⟩, hs⟩

theorem emits_functionFinish (isEntry : Bool) (returns : Ty) :
    Emits [] c (functionFinish isEntry returns c.sp c.link) fun code =>
      (isEntry = true ∧ code = []) ∨ (isEntry = false ∧ ∃ off result,
        Finds c (ownSlot .returnAddress) off ∧ PointsToResult c returns result
          ∧ code = result ++ plain [.lw c.link off c.sp, .reg1 .jr c.link]) := by
  have hresult : Emits [] c (functionResult returns c.sp) (PointsToResult c returns) := by
    refine .ite (fun hv => ?_) fun hv => .pure (.none (by simpa using hv))
    exact .find (.ownSlot _) fun off hoff => .look (eval_resultRegister c) <|
      .pure (.some (by simpa using hv) hoff)
  refine .ite (fun he => .pure (.inl ⟨he, rfl⟩)) fun he => hresult.bind fun result hr => ?_
  exact .find (.ownSlot _) fun off hoff =>
    .pure (.inr ⟨by simpa using he, off, result, hoff, hr, rfl⟩)

theorem emits_function (tag : String) (f : MoonBackend.Function) :
    Emits [] c (function tag f) (Function c tag f) := by
  rw [function_eq]
  refine .look (eval_read c) <| .look (eval_stackPointer c) <| .look (eval_link c) <|
    .look (eval_comment _ c) ?_
  refine (emits_functionStart tag _).bind fun start hs => emits_enterBlock.bind fun _ _ => ?_
  refine (emits_stmts [] 0 f.body).bind fun body hbody => ?_
  refine (emits_functionFinish _ _).bind fun finish hf => ?_
  refine Emits.bind (R := fun _ => True) (.frameSize fun size _ s hs => ⟨trivial, hs.congr rfl⟩)
    fun _ _ => .pure ?_
  rcases hs with ⟨he, size, hsize, rfl⟩ | ⟨he, off, hoff, rfl⟩
  · obtain ⟨-, rfl⟩ := hf.resolve_right fun h => by simp [he] at h
    rw [List.append_nil]
    exact .entry he hsize hbody
  · obtain ⟨-, off', result, hoff', hresult, rfl⟩ := hf.resolve_left fun h => by simp [he] at h
    obtain rfl := hoff.unique hoff'
    exact .routine he hoff hbody hresult

end MoonBackend.Emit
