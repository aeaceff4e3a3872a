import MoonBackend.Proofs.Emit.Pieces
import MoonBackend.Proofs.Layout.Frames

/-!
# Slots and locations of the function under way

With the stock configuration, and as long as no size wraps around, every slot that emission looks up
lies inside the frame, and every location that it finds lies inside the frame or inside the object
that the function under way was called on. Both have room for the whole value.
-/

namespace MoonBackend

open Layout

/-- An index stands on the way to the place that the expression names. -/
def Expr.isIndexed : Expr → Bool
  | .index _ _ _ => true
  | .dot left _ _ => left.isIndexed
  | _ => false

/-- A value of `n` bytes at the offset lies in the `high` bytes from the offset 0 downwards. -/
def Within (high n : ℤ) (off : Int64) : Prop := off.toInt ≤ 0 ∧ -high ≤ off.toInt - n

namespace Emit

open Code

/-- The function under way stands on a layout of the stock machine in which no size wraps around. -/
structure Fitted (p : Program) (c : Context) : Prop extends Standing p c where
  stock : c.config = {}
  fits : Fits p c.config.sizes c.layout.table

namespace Context

variable (c : Context)

def frameBytes : ℤ := bytesOf c.scope.size

def selfBytes : ℤ := bytesOf (c.layout.table.classSize c.head.className)

def Takes (type : Ty) (n : ℤ) : Prop := c.layout.table.Takes c.config.sizes type n

variable {c}

theorem within_slot {high n : ℤ} {off : Int64} (h : Within high n off) :
    Within high n (c.slot off).off := h

end Context

/-- Where a location lies, and how many bytes are there from the base downwards. -/
inductive Region (c : Context) (indexed : Bool) : Location → ℤ → Prop
  | frame (off : Int64) : Region c indexed (c.slot off) c.frameBytes
  | receiver {r : Register} {off : Int64} : c.head.isMember = true → r ∈ c.general →
    Region c indexed ⟨r, off, true⟩ c.selfBytes
  | element {r : Register} {off : Int64} {high : ℤ} : indexed = true → r ∈ c.general →
    (high = c.frameBytes ∨ c.head.isMember = true ∧ high = c.selfBytes) →
    Region c indexed ⟨r, off, true⟩ high

variable {p : Program} {c : Context} {path : Path} {e : Expr} {type : Ty} {off : Int64} {n : ℤ}

namespace Fitted

/-! ### Words -/

variable (h : Fitted p c)

include h

theorem word_eq : c.word = 4 := by
  rw [Context.word, h.stock]

theorem wordBytes : c.config.sizes.word.toInt = 4 := by
  rw [h.stock]
  rfl

theorem words_eq (ht : c.Takes type n) {w : Int64} (hw : Finds c (words type) w) :
    4 * w.toInt = n ∧ 0 < w.toInt ∧ type.base ≠ .boolean ∧ type.base ≠ .void := by
  obtain ⟨m, hm, hmn⟩ := ht.sizeOf
  have hsize : c.layout.sizeOf type = .ok (some m) := by
    rw [Layout.sizeOf, h.sizes]
    exact hm
  have hrun := hw (startCounts {})
  unfold words at hrun
  by_cases hb : type.base = .boolean
  · rw [if_pos hb] at hrun
    cases hrun
  by_cases hv : type.base = .void
  · rw [if_neg hb, if_pos hv] at hrun
    cases hrun
  rw [if_neg hb, if_neg hv] at hrun
  dsimp only at hrun
  rw [eval_bind_ok (eval_read c _),
    eval_bind_ok (show eval (lift (c.layout.sizeOf type)) c _ = (.ok (some m), _) by
      rw [hsize]; rfl), eval_bind_ok (eval_wordSize c _)] at hrun
  have hword : c.config.sizes.word = 4 := h.word_eq
  split at hrun
  · rename_i hcond
    simp only [Bool.and_eq_true, beq_iff_eq, wordOfSize, Option.getD_some,
      hword] at hcond hrun
    obtain ⟨hpos, hmod⟩ := hcond
    obtain rfl : m / 4 = w := Except.ok.inj (congrArg Prod.fst hrun)
    have hpos' : 0 < m.toInt := by simpa using Int64.lt_iff_toInt_lt.1 (of_decide_eq_true hpos)
    have hmod' : m.toInt.tmod 4 = 0 := by
      have := congrArg Int64.toInt hmod
      rwa [Int64.toInt_mod] at this
    have hlt := m.toInt_lt
    have hdiv : (m / 4).toInt = m.toInt / 4 := by
      rw [Int64.toInt_div, show (4 : Int64).toInt = 4 from rfl,
        Int.tdiv_eq_ediv_of_nonneg (by omega), Int.bmod_eq_of_le (by omega) (by omega)]
    rw [Int.tmod_eq_emod_of_nonneg (by omega)] at hmod'
    rw [hdiv]
    exact ⟨by omega, by omega, hb, hv⟩
  · cases hrun

omit h in
theorem notVoid_of_words {w : Int64} (hw : Finds c (words type) w) : type.base ≠ .void := by
  intro hv
  have hrun := hw (startCounts {})
  have hb : type.base ≠ .boolean := by
    rw [hv]
    nofun
  unfold words at hrun
  rw [if_neg hb, if_pos hv] at hrun
  cases hrun

omit h in
theorem notVoid_of_sizeOf {size : Option Int64} (hs : c.layout.sizeOf type = .ok size) :
    type.base ≠ .void := by
  intro hv
  unfold Layout.sizeOf Table.sizeOf Table.elementSize at hs
  rw [hv] at hs
  cases hs

/-! ### Frames -/

theorem scope_mem : c.scope ∈ c.layout.table.functions := List.mem_of_getElem? h.scope

theorem frameBytes_nonneg : 0 ≤ c.frameBytes :=
  (h.laid.frame_sum h.fits h.proper h.scope_mem).2.2

omit h in
theorem frameSize_eq {size : Int64} (hs : c.scope.frameSize = .ok size) :
    size.toInt = c.frameBytes := by
  unfold Scope.frameSize at hs
  unfold Context.frameBytes
  split at hs
  · rename_i m hm
    cases hs
    rw [hm]
    rfl
  · cases hs

omit h in
theorem mem_of_requireSlot {s : Scope} {node : Backing} {kind : EntryKind} {e : Entry}
    (hreq : s.requireSlot node kind = .ok e) : e ∈ s.entries := by
  unfold Scope.requireSlot at hreq
  split at hreq
  · rename_i x hx
    cases hreq
    exact List.mem_of_find?_eq_some hx
  · cases hreq

theorem storage_of_mem {k : ℕ} {s : Scope} (hs : c.layout.table.functions[k]? = some s) {e : Entry}
    (he : e ∈ s.entries) : e ∈ s.storage := by
  obtain ⟨f, -, hframed⟩ := h.framed k s hs
  exact List.mem_filter.2 ⟨he, hframed.storage e he⟩

theorem entry_within {k : ℕ} {s : Scope} (hs : c.layout.table.functions[k]? = some s) {e : Entry}
    (he : e ∈ s.entries) (ho : e.getOffset = .ok off) :
    Within (bytesOf s.size) (bytesOf e.size) off ∧ 0 ≤ bytesOf e.size := by
  have hmem := List.mem_of_getElem? hs
  have hk := (List.mem_filter.1 (h.storage_of_mem hs he)).2
  obtain ⟨o, ho', hhigh, hlow⟩ := h.laid.frame_inside h.fits h.proper hmem he hk
  rw [Entry.getOffset, ho'] at ho
  cases ho
  exact ⟨⟨hhigh, hlow⟩, h.laid.entry_nonneg (List.mem_append_right _ hmem) he hk⟩

theorem takes_of_mem {k : ℕ} {s : Scope} (hs : c.layout.table.functions[k]? = some s) {e : Entry}
    (he : e ∈ s.entries) (hk : e.kind.isAddress = false) : c.Takes e.type (bytesOf e.size) :=
  h.laid.takes_entry h.fits h.proper (List.mem_append_right _ (List.mem_of_getElem? hs))
    (h.storage_of_mem hs he) hk

theorem address_bytes {k : ℕ} {s : Scope} (hs : c.layout.table.functions[k]? = some s) {e : Entry}
    (he : e ∈ s.entries) (hk : e.kind.isAddress = true) : bytesOf e.size = 4 := by
  rw [← h.wordBytes]
  exact (h.laid.addsUp h.fits h.proper).addresses s
    (List.mem_append_right _ (List.mem_of_getElem? hs)) e (h.storage_of_mem hs he) hk

omit h in
theorem slotOffset_of_ownSlot {kind : EntryKind} (hf : Finds c (ownSlot kind) off) :
    Finds c (slotOffset (.function c.index c.head) kind) off := fun s =>
  (eval_bind_ok (eval_read c s)).symm.trans (hf s)

omit h in
theorem of_slotOffset {node : Backing} {kind : EntryKind}
    (hf : Finds c (slotOffset node kind) off) :
    ∃ e ∈ c.scope.entries, c.scope.requireSlot node kind = .ok e ∧ e.getOffset = .ok off := by
  have hrun := congrArg Prod.fst ((eval_slotOffset node kind c (startCounts {})).symm.trans (hf _))
  cases hreq : c.scope.requireSlot node kind with
  | error f =>
    rw [hreq] at hrun
    cases hrun
  | ok e =>
    rw [hreq] at hrun
    exact ⟨e, mem_of_requireSlot hreq, rfl, hrun⟩

/-- A slot that layout was asked for is an entry of the frame with the size of what it is for. -/
theorem slot_entry {d : Demand} (hb : Backed c.scope [d])
    (hf : Finds c (slotOffset d.node d.kind) off) (hk : d.kind.isAddress = false) :
    ∃ y ∈ c.scope.entries, y.getOffset = .ok off ∧ y.kind.isAddress = false
      ∧ c.Takes d.type (bytesOf y.size) := by
  obtain ⟨y, hy, o, hkind, htype, -, -, hget, hfind⟩ := h.slot hb
  obtain rfl := Finds.unique hf hfind
  have hk : y.kind.isAddress = false := hkind ▸ hk
  exact ⟨y, hy, hget, hk, htype ▸ h.takes_of_mem h.scope hy hk⟩

theorem slot_within {d : Demand} (hb : Backed c.scope [d])
    (hf : Finds c (slotOffset d.node d.kind) off) (hk : d.kind.isAddress = false) :
    ∃ n, c.Takes d.type n ∧ Within c.frameBytes n off := by
  obtain ⟨y, hy, hget, -, htakes⟩ := h.slot_entry hb hf hk
  exact ⟨_, htakes, (h.entry_within h.scope hy hget).1⟩

theorem address_within {d : Demand} (hb : Backed c.scope [d])
    (hf : Finds c (slotOffset d.node d.kind) off) (hk : d.kind.isAddress = true) :
    Within c.frameBytes 4 off := by
  obtain ⟨e, he, o, hkind, -, -, -, hget, hfind⟩ := h.slot hb
  obtain rfl := Finds.unique hf hfind
  rw [← h.address_bytes h.scope he (hkind ▸ hk)]
  exact (h.entry_within h.scope he hget).1

/-! ### Places of values -/

omit h in
theorem place_immediate {v : Int64} (hf : Finds c (placeOf path e) (.immediate v)) : e = .int v := by
  have hrun := congrArg Prod.fst (hf (startCounts {}))
  have htemp : ∀ e', (eval (do return Place.slot (← temporary path e')) c (startCounts {})).1
      ≠ .ok (.immediate v) := by
    intro e' heq
    rw [eval_bind] at heq
    split at heq
    · cases heq
    · cases heq
  cases e with
  | int v' =>
    cases hrun
    rfl
  | var name type =>
    rw [placeOf, eval_bind_ok (eval_resolve name c _)] at hrun
    split at hrun
    · rename_i l hl
      rw [eval_bind] at hrun
      split at hrun
      · cases hrun
      · cases hrun
    · exact absurd hrun (htemp _)
  | _ => exact absurd hrun (htemp _)

omit h in
theorem place_slot (hf : Finds c (placeOf path e) (.slot off)) :
    (∃ name type l, e = .var name type ∧ c.layout.table.resolveName c.index name = some (l, false)
      ∧ l.entry.getOffset = .ok off) ∨ Finds c (temporary path e) off := by
  have htemp : ∀ s, (eval (do return Place.slot (← temporary path e)) c s) = (.ok (.slot off), s) →
      eval (temporary path e) c s = (.ok off, s) := by
    intro s heq
    rw [eval_bind] at heq
    split at heq
    · rename_i o s' hs
      cases heq
      exact hs
    · cases heq
  cases e with
  | int v => exact absurd (congrArg Prod.fst (hf (startCounts {}))) (by simp [placeOf])
  | var name type =>
    cases hres : c.layout.table.resolveName c.index name with
    | none =>
      refine .inr fun s => htemp s ?_
      have := hf s
      rwa [placeOf, eval_bind_ok (eval_resolve name c _), hres] at this
    | some found =>
      obtain ⟨l, member⟩ := found
      cases member with
      | true =>
        refine .inr fun s => htemp s ?_
        have := hf s
        rwa [placeOf, eval_bind_ok (eval_resolve name c _), hres] at this
      | false =>
        refine .inl ⟨name, type, l, rfl, hres, ?_⟩
        have hrun := hf (startCounts {})
        rw [placeOf, eval_bind_ok (eval_resolve name c _), hres] at hrun
        simp only [eval_bind, eval_lift] at hrun
        split at hrun
        · rename_i o s' hs
          cases hrun
          exact congrArg Prod.fst hs
        · cases hrun
  | _ => exact .inr fun s => htemp s (hf s)

theorem place_mem (hf : Finds c (placeOf path e) (.slot off)) :
    ∃ x ∈ c.scope.entries, x.getOffset = .ok off := by
  rcases place_slot hf with ⟨name, type, l, rfl, hl, ho⟩ | htemp
  · exact ⟨l.entry, (h.local_of_resolveName hl).1, ho⟩
  · obtain ⟨x, hx, -, ho⟩ := of_slotOffset htemp
    exact ⟨x, hx, ho⟩

omit h in
theorem temporary_backed (he : Ready c .value path e) (hv : e.type.base ≠ .void)
    (hvar : ∀ name type l, e = .var name type →
      c.layout.table.resolveName c.index name ≠ some (l, false)) (hint : ∀ v, e ≠ .int v) :
    Backed c.scope [Demand.temporary path e] := by
  have hs := he.slots
  cases e with
  | missing => exact he.completed.elim
  | int v => exact absurd rfl (hint v)
  | float text => exact hs
  | var name type =>
    obtain ⟨⟨l, member⟩, hfound, -⟩ := Option.map_eq_some_iff.1 he.completed
    cases member with
    | false => exact absurd hfound (hvar name type l rfl)
    | true => rwa [Demand.ofExpr, if_pos (by rw [Context.isMember, hfound]; rfl)] at hs
  | call recv name args isNew type target => exact he.slot_of_call (.inr hv)
  | _ =>
    rw [Demand.ofExpr, backed_append] at hs
    exact hs.2

theorem place_entry (he : Ready c .value path e) (hv : e.type.base ≠ .void)
    (hf : Finds c (placeOf path e) (.slot off)) :
    ∃ y ∈ c.scope.entries, y.getOffset = .ok off ∧ y.kind.isAddress = false
      ∧ c.Takes e.type (bytesOf y.size) := by
  have hint : ∀ v, e ≠ .int v := by
    rintro v rfl
    exact absurd (congrArg Prod.fst (hf (startCounts {}))) (by simp [placeOf])
  have hlocal : ∀ name type l, e = .var name type →
      c.layout.table.resolveName c.index name = some (l, false) → l.entry.getOffset = .ok off →
      ∃ y ∈ c.scope.entries, y.getOffset = .ok off ∧ y.kind.isAddress = false
        ∧ c.Takes e.type (bytesOf y.size) := by
    rintro name type l rfl hl ho
    obtain ⟨hmem, hlook⟩ := h.local_of_resolveName hl
    have htype : l.entry.type = type := by
      have := he.completed
      rw [Expr.Completed, hl] at this
      exact Option.some.inj this
    have hk := Standing.isAddress_of_kind (h.kind_of_lookup hlook).2
    exact ⟨l.entry, hmem, ho, hk, htype ▸ h.takes_of_mem h.scope hmem hk⟩
  rcases place_slot hf with ⟨name, type, l, heq, hl, ho⟩ | htemp
  · exact hlocal name type l heq hl ho
  · by_cases hvar : ∀ name type l, e = .var name type →
        c.layout.table.resolveName c.index name ≠ some (l, false)
    · exact h.slot_entry (temporary_backed he hv hvar hint) htemp rfl
    · push Not at hvar
      obtain ⟨name, type, l, rfl, hl⟩ := hvar
      obtain ⟨o, -, ho⟩ := h.offset h.scope (h.local_of_resolveName hl).1
      have hplace : Finds c (placeOf path (.var name type)) (.slot o) := fun s => by
        rw [placeOf, eval_bind_ok (eval_resolve name c s), hl]
        exact eval_bind_ok (by rw [eval_lift, ho])
      obtain rfl : off = o := Place.slot.inj (Finds.unique hf hplace)
      exact hlocal name type l rfl hl ho

theorem place_within (he : Ready c .value path e) (hv : e.type.base ≠ .void)
    (hf : Finds c (placeOf path e) (.slot off)) :
    ∃ n, c.Takes e.type n ∧ Within c.frameBytes n off := by
  obtain ⟨y, hy, ho, -, htakes⟩ := h.place_entry he hv hf
  exact ⟨_, htakes, (h.entry_within h.scope hy ho).1⟩

/-! ### Receivers -/

theorem receiver_declared {use : Use} {recv : Expr} {name : String} {args : List Expr} {k : ℕ}
    {f : Signature} (he : Ready c use path (.call recv name args false type (some k)))
    (hf : c.layout.table.signature? k = some f) (hm : f.isMember = true) :
    ∃ x ∈ p.classes, x.name =
      if recv.isMissing then c.head.className else recv.type.base.className := by
  obtain ⟨-, -, k', f', hk, hf', -, hsees, -⟩ := he.completed
  cases hk
  cases hf.symm.trans hf'
  have hmethods : ∀ {className}, k ∈ c.layout.table.methods className name →
      ∃ x ∈ p.classes, x.name = className := fun hk =>
    h.laid.declares.class?_isSome.1 (Standing.class_of_methods hk)
  unfold Table.Sees at hsees
  rw [if_neg (by decide)] at hsees
  by_cases hr : recv.isMissing = true
  · rw [if_pos hr] at hsees ⊢
    rcases hsees with hfree | ⟨g, hg, -, hk⟩
    · unfold Signature.isFree at hfree
      simp [hm] at hfree
    · obtain ⟨x, hx, hhead⟩ := h.head
      rw [Table.signature?, hx] at hg
      cases hg
      rw [← hhead]
      exact hmethods hk
  · rw [if_neg hr] at hsees ⊢
    obtain ⟨className, htype, hk⟩ := hsees
    rw [htype]
    exact hmethods hk

/-! ### Locations -/

/-- A member that is seen lies in the object, with room for its value. -/
theorem member_within {className name : String} {l l' : MoonBackend.Located} {shift : Int64}
    (hl : c.layout.table.member? className name = some l)
    (hf : c.layout.table.memberOffset className name = .ok (shift, l')) :
    ∃ n, c.Takes l.entry.type n
      ∧ Within (bytesOf (c.layout.table.classSize className)) n shift := by
  have hD := h.laid.declares.class?_isSome.1 (Standing.class_of_member? hl)
  obtain rfl : l' = l := by
    have heq := h.laid.member?_eq hD name
    rw [hl, hf] at heq
    exact Option.some.inj heq
  obtain ⟨before, q, after, -, -, hq, -⟩ := (h.laid.memberOffset_eq_ok hD).1 hf
  obtain ⟨i, s, -, his, -, hmem, hkind, -⟩ := of_ownMember hq
  have hstorage : l'.entry ∈ s.storage := List.mem_filter.2 ⟨hmem, by rw [hkind]; rfl⟩
  exact ⟨_, h.laid.takes_entry h.fits h.proper (List.mem_append_left _ (List.mem_of_getElem? his))
    hstorage (by rw [hkind]; rfl), h.laid.member_bounds h.fits.classes hD hf⟩

end Fitted

namespace Region

variable {indexed : Bool} {l : Location} {high : ℤ}

theorem lt (h : Region c indexed l high) : high < 2 ^ 63 := by
  have hlt : ∀ size, bytesOf size < 2 ^ 63 := fun _ => Int64.toInt_lt _
  cases h with
  | frame => exact hlt _
  | receiver => exact hlt _
  | element _ _ hh =>
    rcases hh with rfl | ⟨-, rfl⟩
    · exact hlt _
    · exact hlt _

theorem move (h : Region c indexed l high) (off : Int64) :
    Region c indexed { l with off := off } high := by
  cases h with
  | frame => exact .frame off
  | receiver hm hr => exact .receiver hm hr
  | element hi hr hh => exact .element hi hr hh

theorem index {r : Register} (h : Region c indexed l high) (hr : r ∈ c.general) :
    Region c true ⟨r, l.off, true⟩ high := by
  cases h with
  | frame => exact .element rfl hr (.inl rfl)
  | receiver hm _ => exact .element rfl hr (.inr ⟨hm, rfl⟩)
  | element _ _ hh => exact .element rfl hr hh

end Region

/-- Other than names and parts of them, what names a place asks for the slot of its value. -/
theorem Ready.value_of_location (he : Ready c .location path e)
    (hvar : ∀ name type, e ≠ .var name type) (hdot : ∀ left name type, e ≠ .dot left name type)
    (hindex : ∀ base indices type, e ≠ .index base indices type) : Ready c .value path e := by
  refine ⟨he.completed, ?_⟩
  have hs := he.slots
  cases e with
  | var name type => exact absurd rfl (hvar name type)
  | dot left member type => exact absurd rfl (hdot left member type)
  | index base indices type => exact absurd rfl (hindex base indices type)
  | _ => exact hs

/-- A location that is found lies in its region, with room for the value. -/
theorem Locates.region {code : Code} {l : Location} (hl : Locates c path e code l)
    (h : Fitted p c) (he : Ready c .location path e) (hv : e.type.base ≠ .void)
    (hi : ∀ v, e ≠ .int v) :
    ∃ n high, c.Takes e.type n ∧ Region c e.isIndexed l high ∧ Within high n l.off := by
  induction hl with
  | @«variable» path name type l off hres hoff =>
    have hplace : Finds c (placeOf path (.var name type)) (.slot off) := fun s => by
      rw [placeOf, eval_bind_ok (eval_resolve name c s), hres]
      exact eval_bind_ok (by rw [eval_lift, hoff])
    have hs : Ready c .value path (.var name type) := by
      refine ⟨he.completed, ?_⟩
      rw [Demand.ofExpr, if_neg (by simp [Context.isMember, hres])]
      intro d hd
      cases hd
    obtain ⟨n, hn, hin⟩ := h.place_within hs hv hplace
    exact ⟨n, _, hn, .frame off, hin⟩
  | @member path name type l l' off shift r hres hmember hoff hr hshift =>
    obtain ⟨-, hm⟩ := h.member_of_resolveName hres
    obtain ⟨n, hn, hin⟩ := h.member_within hm hshift
    have htype : l.entry.type = type := by
      have := he.completed
      rw [Expr.Completed, hres] at this
      exact Option.some.inj this
    refine ⟨n, _, htype ▸ hn, .receiver hmember hr, ?_⟩
    rw [Int64.zero_add]
    exact hin
  | @dot path left name type code l shift l' hleft hshift ih =>
    obtain ⟨-, className, hobject, hm⟩ := he.completed
    obtain ⟨found, hfound, rfl⟩ := Option.map_eq_some_iff.1 hm
    obtain ⟨n', high, hn', hregion, hhigh, hlow⟩ := ih he.left_of_dot
      (by rw [hobject]; rintro ⟨⟩)
      (by rintro v rfl; cases hobject)
    have hclass : left.type.base.className = className := by rw [hobject]; rfl
    rw [hclass] at hshift
    obtain ⟨n, hn, hin, hinlow⟩ := h.member_within hfound hshift
    have hD := h.laid.declares.class?_isSome.1 (Standing.class_of_member? hfound)
    obtain rfl : n' = _ := (hobject ▸ hn').unique (h.laid.takes_object h.fits hD)
    have hnn := hn.nonneg
    have hlt := hregion.lt
    have hsum : (l.off + shift).toInt = l.off.toInt + shift.toInt :=
      toInt_add_of_le hhigh hin (by omega)
    refine ⟨n, high, hn, hregion.move _, ?_, ?_⟩
    · show (l.off + shift).toInt ≤ 0
      omega
    · show -high ≤ (l.off + shift).toInt - n
      omega
  | @index path base indices type size before first rest b idx hsize hbase hidx hfree hfirst hrest ih =>
    obtain ⟨-, -, hne, hle, rfl⟩ := he.completed
    obtain ⟨n, high, hn, hregion, hhigh, hlow⟩ := ih he.base_of_index hv (by
      rintro v rfl
      exact hne (List.length_eq_zero_iff.1 (Nat.le_zero.1 hle)))
    obtain ⟨m, hm, hmn⟩ := hn.drop indices.length
    exact ⟨m, high, hm, hregion.index hidx, hhigh, by show -high ≤ b.off.toInt - m; omega⟩
  | @value path e place hvar hdot hindex hplace =>
    cases place with
    | immediate v => exact absurd (Fitted.place_immediate hplace) (hi v)
    | slot off =>
      obtain ⟨n, hn, hin⟩ := h.place_within (he.value_of_location hvar hdot hindex) hv hplace
      exact ⟨n, _, hn, .frame off, hin⟩

end Emit

end MoonBackend
