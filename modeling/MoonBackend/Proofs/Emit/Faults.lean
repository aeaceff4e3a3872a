import MoonBackend.Proofs.Emit.Pool
import MoonBackend.Proofs.Emit.Prepared

/-!
# The faults of emission

Layout walks over a body to give every value a slot, emission walks over it to ask for these slots,
and the two walks take different turns. Here they are put side by side: whatever emission asks the
layout, the table or the register pool for is there, so that a fault which comes after a successful
layout is one of emission itself.
-/

namespace MoonBackend.Emit

open Code Layout

variable {α β : Type}

/-! ### Steps that raise no other faults -/

/-- The fault is one of emission, not of a part of the back end that emission relies on. -/
def OfEmission (f : Fault) : Prop := f.component = .emit ∨ f.component = .float

def Mild (c : Context) (x : Emit α) : Prop := ∀ s, Triple OfEmission c s x fun _ _ => True

/-- The step keeps the registers that are held, and every fault of it is one of emission. -/
def Keeps (stock rs : List Register) (c : Context) (x : Emit α) : Prop :=
  ∀ s, Holds stock rs s → Triple OfEmission c s x fun _ s' => Holds stock rs s'

variable {c : Context} {s : Counts} {stock rs : List Register}

namespace Mild

theorem pure (a : α) : Mild c (pure a : Emit α) := fun _ => trivial

theorem throw {e : Fault} (h : OfEmission e) : Mild c (throw e : Emit α) := fun _ => h

theorem bind {x : Emit α} {f : α → Emit β} (hx : Mild c x) (hf : ∀ a, Mild c (f a)) :
    Mild c (x >>= f) := fun s => (hx s).bind fun a s' _ => hf a s'

theorem look {x : Emit α} {f : α → Emit β} {a : α} (he : ∀ s, eval x c s = (.ok a, s))
    (hf : Mild c (f a)) : Mild c (x >>= f) := fun s => Triple.look (he s) (hf s)

theorem ite {p : Prop} [Decidable p] {x y : Emit α} (hx : p → Mild c x) (hy : ¬ p → Mild c y) :
    Mild c (if p then x else y) := by
  split
  · exact hx ‹p›
  · exact hy ‹¬ p›

theorem constant (r : Register) (v : Int64) : Mild c (constant r v) :=
  look (eval_zero c) <| ite (fun _ => pure _) fun _ => ite (fun _ => pure _) fun _ => throw (.inl rfl)

theorem load (r : Register) (p : Place) (i : Int64) : Mild c (load r p i) := by
  cases p with
  | immediate v => exact ite (fun _ => constant r v) fun _ => throw (.inl rfl)
  | slot off => exact look (eval_wordSize c) <| look (eval_stackPointer c) <| pure _

theorem floatSum (r : FloatRegisters) (align nonZero done : String) (dst word : Int64)
    (sp zero : Register) : Mild c (floatSum r align nonZero done dst word sp zero) := fun _ => trivial

end Mild

namespace Keeps

theorem pure (a : α) : Keeps stock rs c (pure a : Emit α) := fun _ hs => hs

theorem throw {e : Fault} (h : OfEmission e) : Keeps stock rs c (throw e : Emit α) := fun _ _ => h

theorem of_still {x : Emit α} (hstill : Still x) (hx : Mild c x) : Keeps stock rs c x := by
  intro s hs
  have hpool := hstill c s
  have hmild := hx s
  unfold Triple at hmild ⊢
  rcases he : eval x c s with ⟨_ | a, s'⟩
  · rw [he] at hmild
    exact hmild
  · rw [he] at hpool
    exact hs.congr hpool

theorem bind {x : Emit α} {f : α → Emit β} (hx : Keeps stock rs c x)
    (hf : ∀ a, Keeps stock rs c (f a)) : Keeps stock rs c (x >>= f) := fun s hs =>
  (hx s hs).bind fun a s' h => hf a s' h

theorem look {x : Emit α} {f : α → Emit β} {a : α} (he : ∀ s, eval x c s = (.ok a, s))
    (hf : Keeps stock rs c (f a)) : Keeps stock rs c (x >>= f) := fun s hs =>
  Triple.look (he s) (hf s hs)

theorem ite {p : Prop} [Decidable p] {x y : Emit α} (hx : p → Keeps stock rs c x)
    (hy : ¬ p → Keeps stock rs c y) : Keeps stock rs c (if p then x else y) := by
  split
  · exact hx ‹p›
  · exact hy ‹¬ p›

theorem withRegisters {k : ℕ} {body : List Register → Emit α} (hk : rs.length + k ≤ stock.length)
    (hstill : ∀ rs', Still (body rs')) (hbody : ∀ rs', Mild c (body rs')) :
    Keeps stock rs c (withRegisters k body) := fun _ hs =>
  Triple.withRegisters hs hk hstill ((hbody _ _).mono fun _ _ _ => hs.congr rfl)

theorem withRegister {body : Register → Emit α} (hk : rs.length < stock.length)
    (hstill : ∀ r, Still (body r)) (hbody : ∀ r, Mild c (body r)) :
    Keeps stock rs c (withRegister body) :=
  withRegisters hk (fun _ => hstill _) fun _ => hbody _

theorem freshLabel (start : String) : Keeps stock rs c (freshLabel start) :=
  of_still (.freshLabel start) fun _ => trivial

theorem comment (text : String) : Keeps stock rs c (comment text) := fun _ hs => hs

theorem copy (hk : rs.length < stock.length) (dst src : Location) (n : Int64) :
    Keeps stock rs c (copy dst src n) :=
  look (eval_wordSize c) <| withRegister hk (fun _ => .pure _) fun _ => .pure _

theorem store (hk : rs.length < stock.length) (dst : Location) (p : Place) (n : Int64) :
    Keeps stock rs c (store dst p n) := by
  cases p with
  | slot off => exact look (eval_frame off c) <| copy hk _ _ n
  | immediate v =>
    refine ite (fun _ => throw (.inl rfl)) fun _ => withRegister hk (fun r => ?_) fun r => ?_
    · exact (Still.constant r v).bind fun _ => .pure _
    · exact (Mild.constant r v).bind fun _ => .pure _

end Keeps

/-! ### Moves and locations -/

theorem holds_releaseLocation {l : Location} (hs : Holds stock l.regs s) :
    Triple OfEmission c s (releaseLocation l) fun _ s' => Holds stock [] s' := by
  unfold releaseLocation
  unfold Location.regs at hs
  split
  · rename_i hheld
    rw [if_pos hheld] at hs
    exact Triple.release hs List.mem_cons_self fun pool hp => by simpa using hp
  · rename_i hheld
    rw [if_neg hheld] at hs
    exact hs

theorem holds_addressOf {l : Location} (hstock : 8 ≤ stock.length) (hs : Holds stock l.regs s) :
    Triple OfEmission c s (addressOf l) fun a s' => Holds stock [a.2] s' := by
  unfold addressOf
  unfold Location.regs at hs
  split
  · rename_i hheld
    rw [if_pos hheld] at hs
    exact hs
  · rename_i hheld
    rw [if_neg hheld] at hs
    refine Triple.bind (R := fun r s' => Holds stock [r] s')
      (Triple.acquire hs (by simp; omega) fun r pool _ hr => hr) fun r s₁ h₁ => h₁

section

variable {p : Program} (h : Standing p c)

include h

theorem Keeps.words {type : Ty} (hs : type.Sizable p) : Keeps stock rs c (words type) := by
  obtain ⟨n, hn⟩ := h.size hs
  refine ite (fun _ => throw (.inl rfl)) fun _ => ite (fun _ => throw (.inl rfl)) fun _ => ?_
  refine look (eval_read c) <| look (a := n) (fun s => by rw [eval_lift, hn]) ?_
  exact look (eval_wordSize c) <| ite (fun _ => pure _) fun _ => throw (.inl rfl)

theorem holds_receiverLocation (hm : c.head.isMember = true) (hstock : 8 ≤ stock.length)
    (hs : Holds stock [] s) :
    Triple OfEmission c s receiverLocation fun a s' => Holds stock a.2.regs s' := by
  have hb := h.headSlots
  rw [Demand.ofHead, backed_append, if_pos hm] at hb
  obtain ⟨e, -, o, -, -, -, hreq, hget, -⟩ := h.slot hb.2
  refine Triple.look (eval_read c s) <| Triple.ite (fun hn => absurd hn (by simp [hm])) fun _ => ?_
  refine Triple.look (eval_read c s) <| Triple.look (eval_read c s) <| Triple.look (eval_read c s) ?_
  refine Triple.look (a := e) (by rw [eval_lift]; exact congrArg (·, s) hreq) ?_
  refine Triple.bind (R := fun r s' => Holds stock [r] s')
    (Triple.acquire hs (by simp; omega) fun r pool _ hr => hr) fun r s₁ h₁ => ?_
  refine Triple.look (a := o) (by rw [eval_lift, hget]) ?_
  exact Triple.look (eval_stackPointer c s₁) h₁

theorem holds_accumulateIndex (idx : Register) (hk : rs.length < stock.length)
    {later : List (Int64 × Path × Expr)}
    (hl : ∀ x ∈ later, Prepared c false .value x.2.1 x.2.2) :
    Keeps stock rs c (accumulateIndex idx later) := by
  induction later with
  | nil => exact .pure _
  | cons entry rest ih =>
    obtain ⟨extent, path, e⟩ := entry
    obtain ⟨place, hplace⟩ := h.place (hl _ List.mem_cons_self)
    refine Keeps.bind (Keeps.withRegister hk (fun r => ?_) fun r => ?_) fun add => ?_
    · exact (Still.placeOf path e).bind fun _ => (Still.load _ _ _).bind fun _ => .pure _
    · exact .look hplace <| (Mild.load r place 0).bind fun _ => .pure _
    · exact (ih fun x hx => hl x (List.mem_cons_of_mem _ hx)).bind fun _ => .pure _

theorem holds_firstIndex {path : Path} {indices : List Expr} (idx : Register)
    (hi : AllPrepared c path 1 indices) : Keeps stock rs c (firstIndex path idx indices) := by
  cases indices with
  | nil => exact .pure _
  | cons e es =>
    obtain ⟨place, hplace⟩ := h.place hi.head
    exact .look hplace <| .of_still (.load idx place 0) (.load idx place 0)

theorem holds_indexLocation {path : Path} {base : Location} {indices : List Expr}
    (hi : AllPrepared c path 1 indices) (hstock : 8 ≤ stock.length) (dims : List Int64)
    (elemSize : Int64) (hs : Holds stock base.regs s) :
    Triple OfEmission c s (indexLocation path base dims indices elemSize) fun a s' =>
      Holds stock a.2.regs s' := by
  have hone := base.length_regs
  rw [indexLocation_eq]
  refine Triple.bind (R := fun r s' => Holds stock (r :: base.regs) s')
    (Triple.acquire hs (by omega) fun r pool _ hr => hr) fun idx s₁ h₁ => ?_
  refine (holds_firstIndex h idx hi s₁ h₁).bind fun first s₂ h₂ => ?_
  refine (holds_accumulateIndex h idx (by simp; omega) (fun x hx => ?_) s₂ h₂).bind
    fun rest s₃ h₃ => ?_
  · obtain ⟨⟨i, extent, e⟩, hm, rfl⟩ := List.mem_map.1 hx
    obtain ⟨j, hj⟩ := List.mem_iff_getElem?.1 (List.mem_of_mem_drop hm)
    obtain ⟨hij, hje⟩ := List.getElem?_zip_eq_some.1 hj
    obtain ⟨-, hje⟩ := List.getElem?_zip_eq_some.1 hje
    have hji : j = i := by
      obtain ⟨_, hij⟩ := List.getElem?_eq_some_iff.1 hij
      simpa using hij
    subst hji
    have := hi.getElem hje
    rwa [Nat.add_comm] at this
  · refine Triple.bind (R := fun _ s' => Holds stock [idx] s') ?_ fun _ s₄ h₄ => h₄
    unfold releaseLocation
    unfold Location.regs at h₃
    split
    · rename_i hheld
      rw [if_pos hheld] at h₃
      refine Triple.release h₃ (by simp) fun pool hp => ?_
      rw [List.erase_cons] at hp
      split at hp
      · rename_i heq
        rwa [eq_of_beq heq]
      · simpa using hp
    · rename_i hheld
      rw [if_neg hheld] at h₃
      exact h₃

theorem holds_locate {path : Path} {e : Expr} (hstock : 8 ≤ stock.length)
    (he : Prepared c false .location path e) (hs : Holds stock [] s) :
    Triple OfEmission c s (locate path e) fun a s' => Holds stock a.2.regs s' := by
  induction path, e using locate.induct generalizing s with
  | case1 path name type =>
    obtain ⟨⟨l, member⟩, hfound, -⟩ := Option.map_eq_some_iff.1 he.completed
    rw [locate]
    refine Triple.look (eval_resolve name c s) ?_
    rw [hfound]
    cases member with
    | false =>
      obtain ⟨o, -, ho⟩ := h.offset h.scope (h.local_of_resolveName hfound).1
      refine Triple.look (a := o) (by rw [eval_lift, ho]) ?_
      exact Triple.look (eval_frame o c s) hs
    | true =>
      obtain ⟨hm, hmember⟩ := h.member_of_resolveName hfound
      refine (holds_receiverLocation h hm hstock hs).bind fun a s₁ h₁ => ?_
      obtain ⟨off, hoff⟩ := h.eval_toMember hmember a.2
      exact Triple.look (eval_read c s₁) <| Triple.look (hoff s₁) h₁
  | case2 path left member type ih =>
    obtain ⟨-, className, hleft, hm⟩ := he.completed
    obtain ⟨found, hfound, -⟩ := Option.map_eq_some_iff.1 hm
    rw [locate]
    refine (ih he.left_of_dot hs).bind fun a s₁ h₁ => ?_
    have hclass : left.type.base.className = className := by rw [hleft]; rfl
    obtain ⟨off, hoff⟩ := h.eval_toMember hfound a.2
    rw [hclass]
    exact Triple.look (hoff s₁) h₁
  | case3 path base indices type ih =>
    obtain ⟨n, hn⟩ := h.size (h.sizable_type he.toReady (.inl he.valued))
    rw [locate]
    refine Triple.look (eval_read c s) <| Triple.look (a := n) (by rw [eval_lift]; exact congrArg (·, s) hn) ?_
    refine (ih he.base_of_index hs).bind fun a s₁ h₁ => ?_
    refine (holds_indexLocation h he.indices_of_index hstock _ _ h₁).bind fun b s₂ h₂ => ?_
    exact h₂
  | case4 path e hv hd hi =>
    have hvalue : Prepared c false .value path e := by
      refine ⟨⟨he.completed, ?_⟩, he.valued⟩
      have hb := he.slots
      cases e with
      | var name type => exact absurd rfl (hv name type)
      | dot left member type => exact absurd rfl (hd left member type)
      | index base indices type => exact absurd rfl (hi base indices type)
      | _ => exact hb
    obtain ⟨place, hplace⟩ := h.place hvalue
    rw [locate]
    · exact Triple.look (hplace s) <| Triple.look (eval_frame _ c s) hs
    · exact hv
    · exact hd
    · exact hi

theorem keeps_materialize {path : Path} {e : Expr} (hstock : 8 ≤ stock.length)
    (he : Prepared c false .value path e) (hb : Backed c.scope [Demand.temporary path e]) :
    Keeps stock [] c (materialize path e) := by
  intro s hs
  obtain ⟨o, ho⟩ := h.eval_temporary hb
  refine (holds_locate h hstock he.located hs).bind fun a s₁ h₁ => ?_
  have hk : a.2.regs.length < stock.length := by
    have := a.2.length_regs
    omega
  refine Triple.look (ho s₁) <| Triple.look (eval_frame o c s₁) ?_
  refine (Keeps.words h (h.sizable_type he.toReady (.inl he.valued)) s₁ h₁).bind fun n s₂ h₂ => ?_
  refine (Keeps.copy hk _ _ n s₂ h₂).bind fun move s₃ h₃ => ?_
  exact (holds_releaseLocation h₃).bind fun _ s₄ h₄ => h₄

/-! ### Operators -/

theorem keeps_unary {path : Path} {e : Expr} (hstock : 8 ≤ stock.length)
    (hb : Backed c.scope [Demand.temporary path e]) (op : UnaryOp) (t : Ty) (src : Place) :
    Keeps stock [] c (unary path e op t src) := by
  obtain ⟨o, ho⟩ := h.eval_temporary hb
  have hk : ([] : List Register).length < stock.length := by simp; omega
  refine .look ho <| .look (eval_stackPointer c) <| .look (eval_zero c) <|
    .look (eval_wordSize c) ?_
  refine .ite (fun _ => .withRegister hk (fun r => ?_) fun r => ?_) fun _ =>
    .ite (fun _ => .withRegister hk (fun r => ?_) fun r => ?_) fun _ => .throw (.inl rfl)
  · exact (Still.load r src 0).bind fun _ => (Still.load r src 1).bind fun _ => .pure _
  · exact (Mild.load r src 0).bind fun _ => (Mild.load r src 1).bind fun _ => .pure _
  · exact (Still.load r src 0).bind fun _ => .pure _
  · exact (Mild.load r src 0).bind fun _ => .pure _

theorem keeps_floatAddSub {path : Path} {e : Expr} (hstock : 8 ≤ stock.length)
    (hb : Backed c.scope [Demand.temporary path e]) (op : BinaryOp) (l r : Place) :
    Keeps stock [] c (floatAddSub path e op l r) := by
  obtain ⟨o, ho⟩ := h.eval_temporary hb
  refine .look ho <| .look (eval_wordSize c) <| .look (eval_stackPointer c) <|
    .look (eval_zero c) ?_
  refine (Keeps.freshLabel _).bind fun align => (Keeps.freshLabel _).bind fun nonZero =>
    (Keeps.freshLabel _).bind fun done => (Keeps.comment _).bind fun note => ?_
  refine (Keeps.withRegisters (by simpa using hstock) (fun rs => ?_) fun rs => ?_).bind fun _ => .pure _
  · exact (Still.load _ l 0).bind fun _ => (Still.load _ l 1).bind fun _ =>
      (Still.load _ r 0).bind fun _ => (Still.load _ r 1).bind fun _ =>
        (Still.floatSum _ _ _ _ _ _ _ _).bind fun _ => .pure _
  · exact (Mild.load _ l 0).bind fun _ => (Mild.load _ l 1).bind fun _ =>
      (Mild.load _ r 0).bind fun _ => (Mild.load _ r 1).bind fun _ =>
        (Mild.floatSum _ _ _ _ _ _ _ _).bind fun _ => .pure _

theorem keeps_binary {path : Path} {e : Expr} (hstock : 8 ≤ stock.length)
    (hb : Backed c.scope [Demand.temporary path e]) (op : BinaryOp) (t : Ty) (l r : Place) :
    Keeps stock [] c (binary path e op t l r) := by
  obtain ⟨o, ho⟩ := h.eval_temporary hb
  refine .ite (fun _ => .ite (fun _ => keeps_floatAddSub h hstock hb op l r) fun _ =>
    .throw (.inr rfl)) fun _ => .ite (fun _ => .throw (.inl rfl)) fun _ => ?_
  refine .look ho <| .look (eval_stackPointer c) <| .look (eval_zero c) ?_
  refine .withRegisters (by simp; omega) (fun rs => ?_) fun rs => ?_
  · exact (Still.load _ l 0).bind fun _ => (Still.load _ r 0).bind fun _ => .pure _
  · exact (Mild.load _ l 0).bind fun _ => (Mild.load _ r 0).bind fun _ => .pure _

theorem keeps_floatLiteral {path : Path} {text : String} (hstock : 8 ≤ stock.length)
    (hb : Backed c.scope [Demand.temporary path (.float text)]) :
    Keeps stock [] c (floatLiteral path text) := by
  obtain ⟨o, ho⟩ := h.eval_temporary hb
  unfold floatLiteral
  split
  · exact .throw (.inr rfl)
  · refine .look ho <| .look (eval_wordSize c) <| .look (eval_stackPointer c) ?_
    refine .withRegister (by simp; omega) (fun r => ?_) fun r => ?_
    · exact (Still.constant r _).bind fun _ => (Still.constant r _).bind fun _ => .pure _
    · exact (Mild.constant r _).bind fun _ => (Mild.constant r _).bind fun _ => .pure _

/-! ### Calls -/

theorem keeps_saveReceiver {path : Path} {recv : Expr} (hstock : 8 ≤ stock.length)
    (he : ¬ recv.isMissing = true → Prepared c false .location path recv)
    (hb : ¬ recv.isMissing = true → Backed c.scope [Demand.receiver path recv]) :
    Keeps stock [] c (saveReceiver path recv) := by
  refine .ite (fun _ => .pure _) fun hr s hs => ?_
  obtain ⟨e, -, o, -, -, -, hreq, hget, -⟩ := h.slot (hb hr)
  refine Triple.look (eval_read c s) ?_
  refine Triple.look (a := e) (by rw [eval_lift]; exact congrArg (·, s) hreq) ?_
  refine (holds_locate h hstock (he hr) hs).bind fun a s₁ h₁ => ?_
  refine (holds_addressOf hstock h₁).bind fun b s₂ h₂ => ?_
  refine Triple.look (a := o) (by rw [eval_lift, hget]) ?_
  refine Triple.bind (R := fun _ s' => Holds stock [] s')
    (Triple.release h₂ List.mem_cons_self fun pool hp => by simpa using hp) fun _ s₃ h₃ => ?_
  exact Triple.look (eval_stackPointer c s₃) h₃

theorem keeps_passArguments {k : ℕ} {scope : Scope} (hstock : 8 ≤ stock.length)
    (hscope : c.layout.table.functions[k]? = some scope) (size : Int64)
    {args : List (Entry × Place)} (ha : ∀ x ∈ args, x.1 ∈ scope.params) :
    Keeps stock [] c (passArguments size args) := by
  induction args with
  | nil => exact .pure _
  | cons pair rest ih =>
    obtain ⟨param, arg⟩ := pair
    obtain ⟨hm, hkind⟩ := List.mem_filter.1 (ha _ List.mem_cons_self)
    obtain ⟨o, -, ho⟩ := h.offset hscope hm
    have hs := h.sizable_of_mem hscope hm (by rw [eq_of_beq hkind]; rfl)
    refine .look (fun s => by rw [eval_lift, ho]) <| .look (eval_frame _ c) ?_
    refine (Keeps.words h hs).bind fun n => (Keeps.store (by simp; omega) _ arg n).bind fun _ => ?_
    exact (ih fun x hx => ha x (List.mem_cons_of_mem _ hx)).bind fun _ => .pure _

section

variable {path : Path} {recv : Expr} {name : String} {args : List Expr} {isNew alone : Bool}
  {type : Ty} {k : ℕ} {use : Use} {callee : MoonBackend.Function} {scope : Scope}

theorem mild_passReceiver
    (he : Prepared c alone use path (.call recv name args isNew type (some k)))
    (hf : c.layout.table.program.functions[k]? = some callee) (hm : callee.isMember = true)
    (r : Register) : Mild c (passReceiver path (.call recv name args isNew type (some k)) recv isNew
      callee.toSignature r) := by
  obtain ⟨-, -, k', f, htarget, hsig, -, hsees, -⟩ := he.completed
  cases htarget
  have hfc : f = callee.toSignature := by
    rw [Table.signature?, hf] at hsig
    exact (Option.some.inj hsig).symm
  subst hfc
  refine .look (eval_stackPointer c) <| .look (eval_read c) ?_
  refine .ite (fun hnew => ?_) fun hnew => .ite (fun hr => ?_) fun hr => ?_
  · obtain ⟨o, ho⟩ := h.eval_temporary (he.toReady.slot_of_call (.inl hnew))
    exact .look ho <| .pure _
  · have hr : ¬ recv.isMissing = true := by simpa using hr
    obtain ⟨_, _, o, _, _, _, _, _, ho⟩ := h.slot (he.toReady.reference_of_call hr)
    rw [Table.Sees, if_neg hnew, if_neg hr] at hsees
    obtain ⟨className, htype, hmem⟩ := hsees
    have hclass : recv.type.base.className = className := by rw [htype]; rfl
    obtain ⟨off, hoff⟩ := h.baseOffset hmem hsig
    refine .look ho <| .look (a := off) (fun s => ?_) <| .pure _
    rw [eval_lift, hclass, hoff]
  · have hr : recv.isMissing = true := by simpa using hr
    refine .look (eval_read c) <| .ite (fun _ => .throw (.inl rfl)) fun hhead => ?_
    have hhead : c.head.isMember = true := by simpa using hhead
    have hb := h.headSlots
    rw [Demand.ofHead, backed_append, if_pos hhead] at hb
    obtain ⟨_, _, o, _, _, _, _, _, ho⟩ := h.slot hb.2
    rw [Table.Sees, if_neg hnew, if_pos hr] at hsees
    obtain ⟨g, hg, -, hmem⟩ := hsees.resolve_left (by
      simp [Signature.isFree, hm])
    obtain ⟨f, hf, hfhead⟩ := h.head
    have hgc : g = c.head := by
      rw [Table.signature?, hf] at hg
      exact (Option.some.inj hg).symm.trans hfhead
    subst hgc
    obtain ⟨off, hoff⟩ := h.baseOffset hmem hsig
    refine .look (fun s => (eval_bind_ok (eval_read c s)).trans (ho s)) <|
      .look (a := off) (fun s => ?_) <| .pure _
    rw [eval_lift, hoff]

theorem keeps_placeReceiver (hstock : 8 ≤ stock.length)
    (he : Prepared c alone use path (.call recv name args isNew type (some k)))
    (hs : c.layout.table.functions[k]? = some scope)
    (hf : c.layout.table.program.functions[k]? = some callee) (size : Int64) (sp : Register) :
    Keeps stock [] c (placeReceiver path (.call recv name args isNew type (some k)) recv isNew k
      callee.toSignature scope size sp) := by
  refine .ite (fun hm => ?_) fun _ => .pure _
  have hb := (backed_append.1 (h.framedAt hs hf).slots).1
  rw [Demand.ofHead, backed_append, if_pos hm] at hb
  obtain ⟨e, hmem, hslot, -, -⟩ := hb.2 _ (List.mem_singleton_self _)
  obtain ⟨o, -, ho⟩ := h.offset hs hmem
  refine .look (a := e) (fun s => ?_) <| .withRegister (by simp; omega) (fun r => ?_) fun r => ?_
  · rw [eval_lift, Scope.requireSlot, hslot]
  · exact (Still.passReceiver _ _ _ _ _ r).bind fun _ => (Still.lift _).bind fun _ => .pure _
  · exact (mild_passReceiver h he hf hm r).bind fun _ =>
      .look (a := o) (fun s => by rw [eval_lift, ho]) <| .pure _

theorem keeps_fetchResult (hstock : 8 ≤ stock.length)
    (he : Prepared c alone use path (.call recv name args isNew type (some k)))
    (hf : c.layout.table.program.functions[k]? = some callee) :
    Keeps stock [] c (fetchResult path (.call recv name args isNew type (some k)) isNew
      callee.toSignature) := by
  refine .ite (fun hv => ?_) fun _ => .pure _
  obtain ⟨-, -, k', f, htarget, hsig, -, -, rfl⟩ := he.completed
  cases htarget
  have hfc : f = callee.toSignature := by
    rw [Table.signature?, hf] at hsig
    exact (Option.some.inj hsig).symm
  subst hfc
  rw [Bool.and_eq_true, Bool.not_eq_true', bne_iff_ne] at hv
  obtain ⟨rfl, hvoid⟩ := hv
  have hb := he.toReady.slot_of_call (.inr hvoid)
  obtain ⟨o, ho⟩ := h.eval_temporary hb
  refine .look ho <| .look (eval_frame o c) <| .look (eval_resultRegister c) ?_
  exact (Keeps.words h (h.sizable_of_backed hb rfl)).bind fun n => .copy (by simp; omega) _ _ n

theorem keeps_callSequence (hstock : 8 ≤ stock.length) (hframe : c.scope.size ≠ none)
    (he : Prepared c alone use path (.call recv name args isNew type (some k))) (places : List Place) :
    Keeps stock [] c (callSequence path (.call recv name args isNew type (some k)) recv isNew k
      places) := by
  intro s hs
  cases hscope : c.layout.table.functions[k]? with
  | none => exact Triple.of_eval_error (eval_callSequence_unresolved (.inl hscope) s) (.inl rfl)
  | some scope =>
    cases hf : c.layout.table.program.functions[k]? with
    | none => exact Triple.of_eval_error (eval_callSequence_unresolved (.inr hf) s) (.inl rfl)
    | some callee =>
      obtain ⟨size, hsize⟩ := Option.ne_none_iff_exists'.1 hframe
      refine Triple.congr (eval_callSequence hscope hf s) ?_
      refine Triple.look (eval_stackPointer c s) <| Triple.look (eval_comment _ c s) ?_
      refine (keeps_saveReceiver h hstock (fun hr => he.receiver_of_call hr)
        (fun hr => he.toReady.reference_of_call hr) s hs).bind fun saved s₁ h₁ => ?_
      refine Triple.look (a := size) (by rw [eval_frameSize, Scope.frameSize, hsize]) ?_
      refine Triple.ite (fun _ => .inl rfl) fun _ => ?_
      refine (keeps_passArguments h hstock hscope size (fun x hx => (List.of_mem_zip hx).1) s₁ h₁).bind
        fun passed s₂ h₂ => ?_
      refine (keeps_placeReceiver h hstock he hscope hf size _ s₂ h₂).bind fun receiver s₃ h₃ => ?_
      refine Triple.look (eval_link c s₃) ?_
      exact (keeps_fetchResult h hstock he hf s₃ h₃).bind fun result s₄ h₄ => h₄

end

/-! ### Expressions -/

mutual

theorem keeps_evaluate (hstock : 8 ≤ stock.length) (hframe : c.scope.size ≠ none) {use : Use}
    {path : Path} : {e : Expr} → Prepared c true use path e → Keeps stock [] c (evaluate use path e)
  | .missing, he => he.completed.elim
  | .int _, _ => .pure _
  | .float _, he => keeps_floatLiteral h hstock he.slots
  | .var name type, he => by
    obtain ⟨⟨l, member⟩, hfound, -⟩ := Option.map_eq_some_iff.1 he.completed
    rw [evaluate]
    refine .ite (fun _ => .pure _) fun huse => .look (eval_resolve name c) ?_
    cases use with
    | location => exact absurd rfl huse
    | value =>
      rw [hfound]
      cases member with
      | false => exact .pure _
      | true =>
        have hb := he.slots
        rw [Demand.ofExpr, if_pos (by rw [Context.isMember, hfound]; rfl)] at hb
        exact keeps_materialize h hstock ⟨⟨he.completed, he.slots⟩, he.valued⟩ hb
  | .dot left member type, he => by
    rw [evaluate]
    refine (keeps_evaluate hstock hframe he.left_of_dot.stand).bind fun operands => ?_
    refine .look (h.checked he.left_of_dot) <| .ite (fun _ => .pure _) fun huse => ?_
    cases use with
    | location => exact absurd rfl huse
    | value =>
      have hb := he.slots
      rw [Demand.ofExpr, backed_append] at hb
      exact (keeps_materialize h hstock ⟨⟨he.completed, he.slots⟩, he.valued⟩ hb.2).bind fun _ => .pure _
  | .index base indices type, he => by
    rw [evaluate]
    refine (keeps_evaluate hstock hframe he.base_of_index.stand).bind fun operands => ?_
    refine .look (h.checked he.base_of_index) ?_
    refine (keeps_evaluateAll hstock hframe he.indices_of_index).bind fun a => ?_
    refine .ite (fun _ => .pure _) fun huse => ?_
    cases use with
    | location => exact absurd rfl huse
    | value =>
      have hb := he.slots
      rw [Demand.ofExpr, backed_append] at hb
      exact (keeps_materialize h hstock ⟨⟨he.completed, he.slots⟩, he.valued⟩ hb.2).bind fun _ => .pure _
  | .unary op operand type, he => by
    have hb := he.slots
    rw [Demand.ofExpr, backed_append] at hb
    obtain ⟨src, hsrc⟩ := h.place he.operand_of_unary
    rw [evaluate]
    refine (keeps_evaluate hstock hframe he.operand_of_unary.stand).bind fun code => ?_
    exact .look hsrc <| (keeps_unary h hstock hb.2 op _ src).bind fun _ => .pure _
  | .binary op left right type, he => by
    have hb := he.slots
    rw [Demand.ofExpr, backed_append] at hb
    obtain ⟨l, hl⟩ := h.place he.left_of_binary
    obtain ⟨r, hr⟩ := h.place he.right_of_binary
    rw [evaluate]
    refine (keeps_evaluate hstock hframe he.left_of_binary.stand).bind fun first => .look hl ?_
    refine (keeps_evaluate hstock hframe he.right_of_binary.stand).bind fun second => .look hr ?_
    exact (keeps_binary h hstock hb.2 op _ l r).bind fun _ => .pure _
  | .call recv name args isNew type none, _ => by
    rw [evaluate]
    exact .throw (.inl rfl)
  | .call recv name args isNew type (some k), he => by
    have hrecv : Keeps stock [] c (receiverOperands path recv) := by
      refine .ite (fun _ => .pure _) fun hr => ?_
      refine (keeps_evaluate hstock hframe (he.receiver_of_call hr).stand).bind fun code => ?_
      exact .look (h.checked (he.receiver_of_call hr)) <| .pure _
    rw [evaluate_call]
    refine hrecv.bind fun operands => (keeps_evaluateAll hstock hframe he.args_of_call).bind fun a => ?_
    exact (keeps_callSequence h hstock hframe he a.2).bind fun _ => .pure _

theorem keeps_evaluateAll (hstock : 8 ≤ stock.length) (hframe : c.scope.size ≠ none) {path : Path}
    {i : ℕ} : {es : List Expr} → AllPrepared c path i es → Keeps stock [] c (evaluateAll path i es)
  | [], _ => .pure _
  | e :: es, he => by
    obtain ⟨place, hplace⟩ := h.place he.head
    rw [evaluateAll]
    refine (keeps_evaluate hstock hframe he.head.stand).bind fun code => .look hplace ?_
    exact (keeps_evaluateAll hstock hframe he.tail).bind fun _ => .pure _

end

theorem keeps_value {path : Path} {e : Expr} (hstock : 8 ≤ stock.length)
    (hframe : c.scope.size ≠ none) (he : Prepared c false .value path e) :
    Keeps stock [] c (value path e) := by
  obtain ⟨place, hplace⟩ := h.place he
  exact (keeps_evaluate h hstock hframe he.stand).bind fun _ => .look hplace <| .pure _

theorem keeps_operands {path : Path} {e : Expr} (hstock : 8 ≤ stock.length)
    (hframe : c.scope.size ≠ none) (he : Prepared c false .location path e) :
    Keeps stock [] c (operands path e) :=
  (keeps_evaluate h hstock hframe he.stand).bind fun _ => .look (h.checked he) <| .pure _

/-! ### Statements -/

theorem keeps_branchIfZero {path : Path} {cond : Expr} (hstock : 8 ≤ stock.length)
    (hframe : c.scope.size ≠ none) (he : Prepared c false .value path cond) (label : String) :
    Keeps stock [] c (branchIfZero path cond label) := by
  refine (keeps_value h hstock hframe he).bind fun a => ?_
  refine (Keeps.withRegister (by simp; omega) (fun r => ?_) fun r => ?_).bind fun _ => .pure _
  · exact (Still.load r _ 0).bind fun _ => .pure _
  · exact (Mild.load r _ 0).bind fun _ => .pure _

theorem keeps_declare {path : Path} {d : VarDecl} {init : Expr} (hstock : 8 ≤ stock.length)
    (hframe : c.scope.size ≠ none)
    (he : ¬ init.isMissing = true → Prepared c false .value (0 :: path) init) :
    Keeps stock [] c (declare path d init) := by
  refine .ite (fun _ => .pure _) fun hm => .look (eval_comment _ c) ?_
  refine (keeps_value h hstock hframe (he hm)).bind fun a => .look (eval_read c) ?_
  split
  · exact .throw (.inl rfl)
  · rename_i e hlook
    obtain ⟨hmem, -⟩ := h.kind_of_lookup hlook
    have hs := h.sizable_of_lookup hlook
    obtain ⟨o, -, ho⟩ := h.offset h.scope hmem
    refine .look (a := o) (fun s => by rw [eval_lift, ho]) <| .look (eval_frame o c) ?_
    refine (Keeps.words h hs).bind fun n => ?_
    exact (Keeps.store (by simp; omega) _ _ n).bind fun _ => .pure _

theorem keeps_assign {path : Path} {target source : Expr} (hstock : 8 ≤ stock.length)
    (hframe : c.scope.size ≠ none) (ht : Prepared c false .location (0 :: path) target)
    (hsource : Prepared c false .value (1 :: path) source) :
    Keeps stock [] c (assign path target source) := by
  refine .look (eval_comment _ c) <| (keeps_operands h hstock hframe ht).bind fun before => ?_
  refine (keeps_value h hstock hframe hsource).bind fun a s hs => ?_
  refine (holds_locate h hstock ht hs).bind fun b s₁ h₁ => ?_
  have hk : b.2.regs.length < stock.length := by
    have := b.2.length_regs
    omega
  refine (Keeps.words h (h.sizable_type ht.toReady (.inl ht.valued)) s₁ h₁).bind fun n s₂ h₂ => ?_
  refine (Keeps.store hk _ _ n s₂ h₂).bind fun move s₃ h₃ => ?_
  exact (holds_releaseLocation h₃).bind fun _ s₄ h₄ => h₄

theorem keeps_ret {path : Path} {result : Expr} (hstock : 8 ≤ stock.length)
    (hframe : c.scope.size ≠ none)
    (he : ¬ result.isMissing = true → Prepared c false .value (0 :: path) result) :
    Keeps stock [] c (ret path result) := by
  refine .look (eval_read c) <| .ite (fun _ => .pure _) fun hm => .look (eval_comment _ c) ?_
  refine .ite (fun _ => .throw (.inl rfl)) fun hvoid => ?_
  have hb := h.headSlots
  rw [Demand.ofHead, backed_append, backed_append, if_neg hvoid] at hb
  obtain ⟨_, _, o, _, _, _, _, _, ho⟩ := h.slot hb.1.2
  refine (keeps_value h hstock hframe (he hm)).bind fun a => ?_
  refine .look (fun s => (eval_bind_ok (eval_read c s)).trans (ho s)) <| .look (eval_frame o c) ?_
  refine (Keeps.words h (h.sizable_of_backed hb.1.2 rfl)).bind fun n => ?_
  exact (Keeps.store (by simp; omega) _ _ n).bind fun _ => .pure _

omit h in
theorem keeps_printWord (hstock : 8 ≤ stock.length) (hframe : c.scope.size ≠ none) (p : Place)
    (i : Int64) : Keeps stock [] c (printWord p i) := by
  obtain ⟨size, hsize⟩ := Option.ne_none_iff_exists'.1 hframe
  refine .look (eval_read c) <|
    .look (a := size) (fun s => by rw [eval_frameSize, Scope.frameSize, hsize]) ?_
  refine .look (eval_stackPointer c) <| .look (eval_zero c) <| .look (eval_link c) <|
    .look (eval_resultRegister c) ?_
  refine .withRegister (by simp; omega) (fun r => ?_) fun r => ?_
  · exact (Still.load r p i).bind fun _ => .pure _
  · exact (Mild.load r p i).bind fun _ => .pure _

omit h in
theorem keeps_printBytes (hstock : 8 ≤ stock.length) (bytes : List UInt8) :
    Keeps stock [] c (printBytes bytes) :=
  .look (eval_zero c) <| .withRegister (by simp; omega) (fun _ => .pure _) fun _ => .pure _

theorem keeps_write {path : Path} {e : Expr} (hstock : 8 ≤ stock.length)
    (hframe : c.scope.size ≠ none) (he : Prepared c false .value path e) :
    Keeps stock [] c (write path e) := by
  rw [write_eq]
  refine .look (eval_read c) <| (keeps_value h hstock hframe he).bind fun a => ?_
  have hprinted : Keeps stock [] c (printValue e.type a.2 c.config.emit) := by
    refine .ite (fun _ => keeps_printWord hstock hframe _ _) fun _ => .ite (fun _ => ?_) fun _ =>
      .throw (.inl rfl)
    exact (keeps_printWord hstock hframe _ _).bind fun _ => (keeps_printBytes hstock _).bind fun _ =>
      (keeps_printWord hstock hframe _ _).bind fun _ => .pure _
  refine hprinted.bind fun printed => ?_
  exact Keeps.bind (.ite (fun _ => keeps_printBytes hstock _) fun _ => .pure _) fun _ => .pure _

theorem keeps_readInto {path : Path} {target : Expr} (hstock : 8 ≤ stock.length)
    (hframe : c.scope.size ≠ none) (he : Prepared c false .location path target) :
    Keeps stock [] c (readInto path target) := by
  obtain ⟨size, hsize⟩ := Option.ne_none_iff_exists'.1 hframe
  refine .ite (fun _ => .throw (.inl rfl)) fun _ => ?_
  refine (keeps_operands h hstock hframe he).bind fun before => .look (eval_read c) ?_
  refine .look (a := size) (fun s => by rw [eval_frameSize, Scope.frameSize, hsize]) ?_
  refine .look (eval_stackPointer c) <| .look (eval_zero c) <| .look (eval_link c) ?_
  refine (Keeps.withRegister (by simp; omega) (fun _ => .pure _) fun _ => .pure _).bind
    fun calls s hs => ?_
  refine (holds_locate h hstock he hs).bind fun a s₁ h₁ => ?_
  refine (holds_releaseLocation h₁).bind fun _ s₂ h₂ => ?_
  exact Triple.look (eval_resultRegister c s₂) h₂

omit h in
theorem keeps_enterBlock : Keeps stock [] c enterBlock := fun _ hs => hs.congr rfl

omit h in
theorem keeps_checkRegisters (st : Stmt) : Keeps stock [] c (checkRegisters st) := by
  intro s hs
  have hlive : s.pool.live = 0 := by
    rw [RegisterPool.live, hs.held]
    rfl
  refine Triple.look (eval_get c s) <| Triple.ite (fun hne => ?_) fun _ => hs
  rw [hlive] at hne
  cases hne

omit h in
mutual

theorem keeps_stmt (h : Standing p c) (hstock : 8 ≤ stock.length) (hframe : c.scope.size ≠ none) {path : Path} :
    {st : Stmt} → StmtPrepared c path st → Keeps stock [] c (stmt path st)
  | .declare _ _, hst => keeps_declare h hstock hframe fun hm =>
      ⟨⟨hst.completed.resolve_left hm, hst.slots⟩, hst.valued⟩
  | .assign target source, hst => by
    have hs := hst.slots
    have hv := hst.valued
    rw [Demand.ofStmt, backed_append] at hs
    rw [Stmt.isValued, Bool.and_eq_true] at hv
    exact keeps_assign h hstock hframe ⟨⟨hst.completed.1, hs.1⟩, hv.1⟩ ⟨⟨hst.completed.2, hs.2⟩, hv.2⟩
  | .when cond body, hst => by
    have hs := hst.slots
    have hv := hst.valued
    rw [Demand.ofStmt, backed_append] at hs
    rw [Stmt.isValued, Bool.and_eq_true] at hv
    rw [stmt]
    refine (Keeps.freshLabel _).bind fun elseLabel => (Keeps.freshLabel _).bind fun endLabel => ?_
    refine .look (eval_comment _ c) ?_
    refine (keeps_branchIfZero h hstock hframe ⟨⟨hst.completed.1, hs.1⟩, hv.1⟩ _).bind fun test => ?_
    refine keeps_enterBlock.bind fun _ => ?_
    exact (keeps_stmts h hstock hframe ⟨⟨hst.completed.2, hs.2⟩, hv.2⟩).bind fun _ => .pure _
  | .branch cond yes no, hst => by
    have hs := hst.slots
    have hv := hst.valued
    rw [Demand.ofStmt, backed_append, backed_append] at hs
    rw [Stmt.isValued, Bool.and_eq_true, Bool.and_eq_true] at hv
    rw [stmt]
    refine (Keeps.freshLabel _).bind fun elseLabel => (Keeps.freshLabel _).bind fun endLabel => ?_
    refine .look (eval_comment _ c) ?_
    refine (keeps_branchIfZero h hstock hframe ⟨⟨hst.completed.1, hs.1.1⟩, hv.1.1⟩ _).bind fun test => ?_
    refine keeps_enterBlock.bind fun _ => ?_
    refine (keeps_stmts h hstock hframe ⟨⟨hst.completed.2.1, hs.1.2⟩, hv.1.2⟩).bind fun yes => ?_
    refine keeps_enterBlock.bind fun _ => ?_
    exact (keeps_stmts h hstock hframe ⟨⟨hst.completed.2.2, hs.2⟩, hv.2⟩).bind fun _ => .pure _
  | .loop cond body, hst => by
    have hs := hst.slots
    have hv := hst.valued
    rw [Demand.ofStmt, backed_append] at hs
    rw [Stmt.isValued, Bool.and_eq_true] at hv
    rw [stmt]
    refine (Keeps.freshLabel _).bind fun top => (Keeps.freshLabel _).bind fun stop => ?_
    refine .look (eval_comment _ c) ?_
    refine (keeps_branchIfZero h hstock hframe ⟨⟨hst.completed.1, hs.1⟩, hv.1⟩ _).bind fun test => ?_
    refine keeps_enterBlock.bind fun _ => ?_
    exact (keeps_stmts h hstock hframe ⟨⟨hst.completed.2, hs.2⟩, hv.2⟩).bind fun _ => .pure _
  | .write _, hst => by
    rw [stmt]
    refine .look (eval_comment _ c) ?_
    exact (keeps_write h hstock hframe ⟨⟨hst.completed, hst.slots⟩, hst.valued⟩).bind fun _ => .pure _
  | .read _, hst => by
    rw [stmt]
    refine .look (eval_comment _ c) ?_
    exact (keeps_readInto h hstock hframe ⟨⟨hst.completed, hst.slots⟩, hst.valued⟩).bind fun _ => .pure _
  | .ret _, hst => keeps_ret h hstock hframe fun hm =>
      ⟨⟨hst.completed.resolve_left hm, hst.slots⟩, hst.valued⟩
  | .call _, hst => keeps_evaluate h hstock hframe ⟨⟨hst.completed, hst.slots⟩, hst.valued⟩

theorem keeps_stmts (h : Standing p c) (hstock : 8 ≤ stock.length) (hframe : c.scope.size ≠ none) {path : Path}
    {i : ℕ} : {sts : List Stmt} → StmtsPrepared c path i sts → Keeps stock [] c (stmts path i sts)
  | [], _ => .pure _
  | st :: sts, hst => by
    have hs := hst.slots
    have hv := hst.valued
    rw [Demand.ofStmts, backed_append] at hs
    rw [Stmt.areValued, Bool.and_eq_true] at hv
    rw [stmts]
    refine (keeps_stmt h hstock hframe ⟨⟨hst.completed.1, hs.1⟩, hv.1⟩).bind fun code => ?_
    refine (keeps_checkRegisters st).bind fun _ => ?_
    exact (keeps_stmts h hstock hframe ⟨⟨hst.completed.2, hs.2⟩, hv.2⟩).bind fun _ => .pure _

end

/-! ### Functions and programs -/

theorem keeps_function {f : MoonBackend.Function} (hstock : 8 ≤ stock.length) (hframe : c.scope.size ≠ none)
    (hf : f.toSignature = c.head) (hbody : StmtsPrepared c [] 0 f.body) (tag : String) :
    Keeps stock [] c (function tag f) := by
  obtain ⟨size, hsize⟩ := Option.ne_none_iff_exists'.1 hframe
  have hsizeOf : ∀ s, eval frameSize c s = (.ok size, s) := fun s => by
    rw [eval_frameSize, Scope.frameSize, hsize]
  have hhead := h.headSlots
  rw [← hf, Demand.ofHead, backed_append, backed_append] at hhead
  have hown : ∀ {kind : EntryKind} {type : Ty},
      Backed c.scope [⟨kind, type, .function c.index f.toSignature⟩] →
        ∃ o, ∀ s, eval (ownSlot kind) c s = (.ok o, s) := by
    intro kind type hb
    obtain ⟨_, _, o, _, _, _, _, _, ho⟩ := h.slot hb
    rw [hf] at ho
    exact ⟨o, fun s => (eval_bind_ok (eval_read c s)).trans (ho s)⟩
  rw [function_eq]
  refine .look (eval_read c) <| .look (eval_stackPointer c) <| .look (eval_link c) <|
    .look (eval_comment _ c) ?_
  have hstart : Keeps stock [] c (functionStart tag (f.isFree c.config.emit.entryFunction)
      ⟨c.config.registers.stackPointer⟩ ⟨c.config.registers.link⟩) := by
    refine .ite (fun _ => .look hsizeOf <| .comment _) fun hentry => ?_
    have hb := hhead.1.1
    rw [if_neg hentry] at hb
    obtain ⟨o, ho⟩ := hown hb
    exact .look ho <| .pure _
  have hfinish : Keeps stock [] c (functionFinish (f.isFree c.config.emit.entryFunction) f.returns
      ⟨c.config.registers.stackPointer⟩ ⟨c.config.registers.link⟩) := by
    refine .ite (fun _ => .pure _) fun hentry => ?_
    have hb := hhead.1.1
    rw [if_neg hentry] at hb
    obtain ⟨o, ho⟩ := hown hb
    refine Keeps.bind (.ite (fun hv => ?_) fun _ => .pure _) fun _ => .look ho <| .pure _
    have hb := hhead.1.2
    rw [if_neg (bne_iff_ne.1 hv)] at hb
    obtain ⟨o, ho⟩ := hown hb
    exact .look ho <| .look (eval_resultRegister c) <| .pure _
  refine hstart.bind fun _ => keeps_enterBlock.bind fun _ => ?_
  refine (keeps_stmts h hstock hframe hbody).bind fun _ => hfinish.bind fun _ => ?_
  refine Keeps.bind (.look hsizeOf fun s hs => ?_) fun _ => .pure _
  exact hs.congr rfl

end

section

variable {γ : Type} {config : Config} {l : Layout} {tags : List String}

/-- Emission ended with no register held, or with a fault of its own. -/
def Ends (stock : List Register) : Except Fault γ × Counts → Prop
  | (.ok _, k) => Holds stock [] k
  | (.error f, _) => OfEmission f

theorem ends_functionsAt (before : Code)
    (hf : ∀ i k, Holds stock [] k → Ends stock ((functionAt config l tags i).run k)) :
    ∀ (is : List ℕ) (k : Counts), Holds stock [] k →
      Ends stock ((functionsAt config l tags before is).run k)
  | [], _, hk => hk
  | i :: is, k, hk => by
    have hi := hf i k hk
    rcases hr : (functionAt config l tags i).run k with ⟨_ | code, k'⟩
    · rw [hr] at hi
      rw [functionsAt, run_bind, hr]
      exact hi
    · rw [hr] at hi
      have hrest := ends_functionsAt before hf is k' hi
      rw [run_functionsAt_cons hr]
      rcases hr' : (functionsAt config l tags before is).run k' with ⟨_ | rest, k''⟩
      · rw [hr'] at hrest
        exact hrest
      · rw [hr'] at hrest
        exact hrest

end

section

variable {p : Program} {t : Table} {config : Config} {l : Layout}

/-- After a successful layout in which every frame has a size, emission gives code or stops with a
fault of its own. It never misses a slot, a member or an offset, and the register pool never runs
out, is never given back what it does not miss, and is complete after every statement. -/
theorem run_faults_of_emission (hb : Table.build p = .ok t) (hbare : p.isBare = true)
    (hvalued : t.program.isValued = true) (hc : config.validate = .ok ())
    (hgeneral : 8 ≤ config.registers.general.length)
    (hr : (ofTable t config).resolve = (.ok (), l))
    (hsized : ∀ s ∈ l.table.functions, s.size ≠ none) :
    (∃ code, (run config l).1 = .ok code)
      ∨ ∃ f, (run config l).1 = .error f ∧ (f.component = .emit ∨ f.component = .float) := by
  have hstock : 8 ≤ (config.registers.general.map Register.mk).length := by simpa using hgeneral
  have hfunction : ∀ i k, Holds (config.registers.general.map Register.mk) [] k →
      Ends (config.registers.general.map Register.mk)
        ((functionAt config l (tags l.table.program) i).run k) := by
    intro i k hk
    cases hs : l.table.functions[i]? with
    | none =>
      unfold functionAt
      rw [hs]
      exact hk
    | some scope =>
      cases hf : l.table.program.functions[i]? with
      | none =>
        unfold functionAt
        rw [hs, hf]
        exact hk
      | some f =>
        rw [run_functionAt hs hf]
        have hkeeps := keeps_function (standing_of_resolve hb hc hr hs hf (tags l.table.program)
          (exitLabel (tags l.table.program) i k)) hstock (hsized scope (List.mem_of_getElem? hs)) rfl
          (prepared_of_resolve hb hbare hvalued hc hr hs hf _ _)
          ((tags l.table.program).getD i "") (afterLabel k) (hk.congr rfl)
        unfold Triple at hkeeps
        rcases he : eval (function ((tags l.table.program).getD i "") f) _ (afterLabel k)
          with ⟨_ | code, k'⟩
        · rw [he] at hkeeps
          exact hkeeps
        · rw [he] at hkeeps
          exact hkeeps
  have hprogram : Ends (config.registers.general.map Register.mk)
      ((program config l).run (startCounts config)) := by
    rw [run_program]
    have hentries := ends_functionsAt [] hfunction (entryPositions config l) _
      (holds_startCounts (Config.nodup_general_of_validate hc))
    rcases hr : (functionsAt config l (tags l.table.program) [] (entryPositions config l)).run
      (startCounts config) with ⟨_ | entries, k⟩
    · rw [hr] at hentries
      exact hentries
    · rw [hr] at hentries
      have hothers := ends_functionsAt [.blank] hfunction (otherPositions config l) _ hentries
      simp only
      rcases hr : (functionsAt config l (tags l.table.program) [.blank] (otherPositions config l)).run
        k with ⟨_ | others, k'⟩
      · rw [hr] at hothers
        exact hothers
      · rw [hr] at hothers
        exact hothers
  unfold run
  rw [show ({ pool := .ofNumbers config.registers.general } : Counts) = startCounts config from rfl]
  rcases hr : (program config l).run (startCounts config) with ⟨f | code, k⟩
  · rw [hr] at hprogram
    exact .inr ⟨f, rfl, hprogram⟩
  · exact .inl ⟨code, rfl⟩

end

/-- A member function that indexes an inherited array, called through a receiver and for a new
object. -/
def tally : Program :=
  ⟨[⟨"Row", [], [⟨"cells", ⟨.integer, [2, 3]⟩⟩]⟩, ⟨"Sheet", ["Row"], [⟨"scale", .float⟩]⟩],
    [{ name := "cell", className := "Sheet", isConstructor := false, params := [⟨"i", .integer⟩],
       returns := .integer,
       body := [.ret (.index (.var "cells" .void) [.var "i" .void, .int 1] .void)] },
     { name := "Sheet", className := "Sheet", isConstructor := true, params := [], returns := .void,
       body := [.assign (.var "scale" .void)
         (.binary .add (.float "1.5") (.float "2.25") .void)] },
     { name := "main", className := "", isConstructor := false, params := [], returns := .void,
       body := [.declare ⟨"s", .object "Sheet"⟩ (.call .missing "Sheet" [] true (.object "Sheet") none),
         .assign (.index (.dot (.var "s" .void) "cells" .void) [.int 1, .int 1] .void) (.int 7),
         .write (.call (.var "s" .void) "cell" [.int 1] false .void none)] }]⟩

theorem run_faults_of_emission_tally : ∃ t l, Table.build tally = .ok t
    ∧ (ofTable t {}).resolve = (.ok (), l) ∧ ((∃ code, (run {} l).1 = .ok code)
      ∨ ∃ f, (run {} l).1 = .error f ∧ (f.component = .emit ∨ f.component = .float)) := by
  obtain ⟨t, hb, hcheck⟩ := of_tableChecks tally (fun t =>
    t.program.isValued && (ofTable t {}).resolve.1.isOk
      && (ofTable t {}).resolve.2.table.functions.all fun s => s.size.isSome) (by cbv)
  simp only [Bool.and_eq_true] at hcheck
  obtain ⟨⟨hvalued, hok⟩, hsized⟩ := hcheck
  have hres := resolve_of_isOk hok
  refine ⟨t, _, hb, hres, run_faults_of_emission hb (by decide) hvalued rfl (by decide) hres ?_⟩
  intro s hs hnone
  have := List.all_eq_true.1 hsized s hs
  rw [hnone] at this
  cases this

/-- A frame whose size comes out as the number that marks an open size. -/
def endlessFrame : Program :=
  ⟨[], [{ name := "main", className := "", isConstructor := false, params := [], returns := .void,
          body := [.declare ⟨"a", ⟨.boolean, [9223372036854775807]⟩⟩ .missing,
            .declare ⟨"b", ⟨.boolean, [9223372036854775807]⟩⟩ .missing,
            .declare ⟨"c", .boolean⟩ .missing] }]⟩

/-- Such a frame passes layout, and emission finds it open. -/
theorem run_endlessFrame_faults : ∃ t l, Table.build endlessFrame = .ok t
    ∧ endlessFrame.isBare = true ∧ t.program.isValued = true
    ∧ (ofTable t {}).resolve = (.ok (), l)
    ∧ ∃ f, (run {} l).1 = .error f ∧ f.component = .layout := by
  obtain ⟨t, hb, hcheck⟩ := of_tableChecks endlessFrame (fun t =>
    t.program.isValued && (ofTable t {}).resolve.1.isOk
      && match (run {} (ofTable t {}).resolve.2).1 with
        | .error f => f.component == .layout
        | .ok _ => false) (by cbv)
  simp only [Bool.and_eq_true] at hcheck
  obtain ⟨⟨hvalued, hok⟩, hrun⟩ := hcheck
  refine ⟨t, _, hb, rfl, hvalued, resolve_of_isOk hok, ?_⟩
  split at hrun
  · exact ⟨_, ‹_›, eq_of_beq hrun⟩
  · cases hrun

end MoonBackend.Emit
