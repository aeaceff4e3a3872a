import MoonBackend.Proofs.Emit.Encodable

/-!
# Emitted instructions can be encoded

In a program whose frames and objects are small, every instruction that is emitted has registers that
exist and an immediate operand that the assembler takes.
-/

namespace MoonBackend

open Layout Text Code Assembly

namespace Emit

variable {p : Program} {c : Context} {path : Path} {e : Expr} {r : Register} {code : Code}

/-! ### Operators -/

theorem within_zero : Within 16384 0 0 := ⟨by decide, by decide⟩

theorem Roomy.immediate_size (h : Roomy p c) {size : Int64} (hs : c.scope.frameSize = .ok size) :
    Immediate size ∧ Immediate (-size) := by
  have hsize := Fitted.frameSize_eq hs
  have hframe := h.frame_le
  have hnn := h.frameBytes_nonneg
  have hneg : (-size).toInt = -size.toInt := by
    rw [Int64.toInt_neg, Int.bmod_eq_of_le (by omega) (by omega)]
  unfold Immediate
  rw [hneg]
  omega

theorem Roomy.immediate_pair (h : Roomy p c) {off : Int64} (ho : Within 16384 0 off) :
    Immediate off ∧ Immediate (off - c.word) := by
  refine ⟨(ho.mono (by decide) (le_refl 0)).immediate, ?_⟩
  obtain ⟨h0, hlow⟩ := ho
  have hsub : (off - 4).toInt = off.toInt - 4 := toInt_sub_of_le (by decide) (by simp; omega)
  rw [h.word_eq]
  unfold Immediate
  rw [hsub]
  omega

theorem encodable_unaryCode {zero : Register} (hr : r.Known) (hz : zero.Known) (op : UnaryOp) :
    Encodable (unaryCode r zero op) := by
  cases op <;> simp [unaryCode, hr, hz]

theorem Unary.encodable {op : UnaryOp} {t : Ty} {src : Place} (hu : Unary c path e op t src code)
    (h : Roomy p c) (hs : src.Low) : Encodable code := by
  cases hu with
  | float _ _ hoff hr hm hx =>
    have hk := h.known_general hr
    obtain ⟨h0, h1⟩ := h.immediate_pair (h.low_of_slotOffset hoff)
    simp only [encodable_append, hm.encodable h hk hs (.inl rfl), hx.encodable h hk hs (.inr rfl)]
    split <;> simp [hk, h.known_sp, h.known_nought, h0, h1]
  | integer _ hoff hr hv =>
    have hk := h.known_general hr
    obtain ⟨h0, -⟩ := h.immediate_pair (h.low_of_slotOffset hoff)
    simp [hv.encodable h hk hs (.inl rfl), encodable_unaryCode hk h.known_nought, hk, h.known_sp, h0]

theorem encodable_integerOperation {a b zero : Register} (ha : a.Known) (hb : b.Known)
    (hz : zero.Known) (op : BinaryOp) : Encodable (integerOperation a b zero op) := by
  cases op <;> simp [integerOperation, ha, hb, hz]

section

variable {a t zero : Register} (ha : a.Known) (ht : t.Known) (hz : zero.Known)

include ht

theorem encodable_swap {x y : Register} (hx : x.Known) (hy : y.Known) (hz : zero.Known) :
    Encodable (swap x y t zero) := by
  simp [swap, hx, hy, ht, hz]

theorem encodable_widenCode {m width other : Register} (hm : m.Known) (hw : width.Known)
    (ho : other.Known) (loop stop : String) : Encodable (widenCode m width other t loop stop) := by
  have h1 : Immediate 1 := ⟨by decide, by decide⟩
  have h10 : Immediate 10 := ⟨by decide, by decide⟩
  simp [widenCode, hm, hw, ho, ht, h1, h10]

theorem encodable_trimCode {m count : Register} (hm : m.Known) (hc : count.Known)
    (trim trimmed : String) : Encodable (trimCode m count t trim trimmed) := by
  have h1 : Immediate 1 := ⟨by decide, by decide⟩
  have h10 : Immediate 10 := ⟨by decide, by decide⟩
  simp [trimCode, hm, hc, ht, h1, h10]

include ha hz

theorem encodable_digitsCode {dst src : Register} (hd : dst.Known) (hs : src.Known)
    (abs loop stop : String) : Encodable (digitsCode dst src a t zero abs loop stop) := by
  have h1 : Immediate 1 := ⟨by decide, by decide⟩
  have h10 : Immediate 10 := ⟨by decide, by decide⟩
  simp [digitsCode, digitsLoop, hd, hs, ha, ht, hz, h1, h10]

end

theorem encodable_sumCode {f : FloatRegisters} {l : SumLabels} {slot word : Int64}
    {sp zero : Register} (hf : ∀ x ∈ [f.bigMantissa, f.bigExponent, f.smallMantissa,
      f.smallExponent, f.bigWidth, f.smallWidth, f.absolute, f.scratch], x.Known)
    (hsp : sp.Known) (hz : zero.Known) (h0 : Immediate slot) (h1 : Immediate (slot - word)) :
    Encodable (sumCode f l slot word sp zero) := by
  simp only [List.forall_mem_cons] at hf
  obtain ⟨hbm, hbe, hsm, hse, hbw, hsw, ha, ht, -⟩ := hf
  have h100 : Immediate Decimal.headroom := ⟨by decide, by decide⟩
  have h2 : Immediate 2 := ⟨by decide, by decide⟩
  simp [sumCode, orderCode, alignCode, addCode, zeroCode, storeCode, encodable_swap ht hbm hsm hz,
    encodable_swap ht hbe hse hz, encodable_digitsCode ha ht hz hbw hbm,
    encodable_digitsCode ha ht hz hsw hsm, encodable_digitsCode ha ht hz hsm hbm,
    encodable_widenCode ht hbm hbw hsw, encodable_widenCode ht hsm hsw hbw,
    encodable_trimCode ht hbm hsw, hbm, hbe, hsm, hse, hbw, hsw, ht, hsp, hz, h0, h1, h2, h100]

theorem Binary.encodable {op : BinaryOp} {t : Ty} {x y : Place} (hb : Binary c path e op t x y code)
    (h : Roomy p c) (hx : x.Low) (hy : y.Low) : Encodable code := by
  cases hb with
  | @float dst f labels _ _ _ _ _ _ hdst hregs hlm hle hrm hre =>
    have hf : ∀ x ∈ [f.bigMantissa, f.bigExponent, f.smallMantissa, f.smallExponent, f.bigWidth,
        f.smallWidth, f.absolute, f.scratch], x.Known :=
      fun x hx => h.known_general (hregs x hx)
    obtain ⟨h0, h1⟩ := h.immediate_pair (h.low_of_slotOffset hdst)
    have hsum : Encodable (sumCode f labels dst c.word c.sp c.nought) :=
      encodable_sumCode hf h.known_sp h.known_nought h0 h1
    simp only [List.forall_mem_cons] at hf
    obtain ⟨hbm, hbe, hsm, hse, -⟩ := hf
    simp only [encodable_append, encodable_note, hlm.encodable h hsm hx (.inl rfl),
      hle.encodable h hse hx (.inr rfl), hrm.encodable h hbm hy (.inl rfl),
      hre.encodable h hbe hy (.inr rfl), hsum, and_true, true_and]
    split <;> simp [hbm, h.known_nought]
  | integer _ hoff hra hrb _ hleft hright =>
    have ha := h.known_general hra
    have hb := h.known_general hrb
    obtain ⟨h0, -⟩ := h.immediate_pair (h.low_of_slotOffset hoff)
    simp [hleft.encodable h ha hx (.inl rfl), hright.encodable h hb hy (.inl rfl),
      encodable_integerOperation ha hb h.known_nought, ha, h.known_sp, h0]

/-! ### Moves of values -/

theorem Locates.words_le {l : Location} (hl : Locates c path e code l) (h : Roomy p c)
    (he : Ready c .location path e) {w : Int64} (hw : Finds c (words e.type) w) :
    w.toInt ≤ 4096 := by
  by_cases hi : ∃ v, e = .int v
  · obtain ⟨v, rfl⟩ := hi
    have hword := h.wordBytes
    have := (h.words_le (LaidOut.takes_integer h.proper) (by rw [hword]; decide) hw).2.2
    exact this
  · obtain ⟨n, high, hn, hregion, hin⟩ := hl.region h.toFitted he
      (Fitted.notVoid_of_words hw) (fun v hv => hi ⟨v, hv⟩)
    have hle := h.region_le hregion
    have h0 := hin.1
    have h1 := hin.2
    exact (h.words_le hn (by omega) hw).2.2

theorem Materializes.encodable (hm : Materializes c path e code) (h : Roomy p c)
    (he : Ready c .value path e) : Encodable code := by
  obtain ⟨hloc, hoff, hn, hr, -⟩ := hm
  have hwords := hloc.words_le h he.located hn
  have hdst := h.low_of_slotOffset hoff
  rw [encodable_append]
  refine ⟨hloc.encodable h he.located, ?_⟩
  exact encodable_copyCode h (h.known_general hr) h.known_sp (hloc.known h) hwords
    (Context.within_slot ⟨hdst.1, by have := hdst.2; omega⟩) (hloc.low h he.located)

/-! ### Calls -/

theorem encodable_adjust {off : Int64} (hr : r.Known) (ho : Immediate off) :
    Encodable (adjust r off) := by
  unfold adjust
  split <;> simp [hr, ho]

theorem Addresses.encodable {l : Location} (ha : Addresses c l code r) (h : Roomy p c)
    (hl : l.base.Known) (ho : Within 16384 0 l.off) : Encodable code ∧ r.Known := by
  obtain ⟨h0, -⟩ := h.immediate_pair ho
  cases ha with
  | held =>
    refine ⟨?_, hl⟩
    split <;> simp [hl, h0]
  | free _ hr =>
    have hk := h.known_general hr
    simp [hk, hl, h0]

theorem SavesReceiver.encodable (hs : SavesReceiver c path e code) (h : Roomy p c)
    (he : ¬ e.isMissing = true → Ready c .location path e) : Encodable code := by
  cases hs with
  | none => simp
  | some hmissing hoff hloc haddr =>
    have he := he (by rw [hmissing]; decide)
    obtain ⟨hmove, hk⟩ := haddr.encodable h (hloc.known h) (hloc.low h he)
    obtain ⟨h0, -⟩ := h.immediate_pair (h.low_of_slotOffset hoff)
    simp [hloc.encodable h he, hmove, hk, h.known_sp, h0]

theorem PassesArguments.encodable {size : Int64} {args : List (Entry × Place)}
    (hp : PassesArguments c size args code) (h : Roomy p c) {k : ℕ} {scope : Scope}
    (hscope : c.layout.table.functions[k]? = some scope) (hsize : size.toInt = c.frameBytes)
    (hargs : ∀ x ∈ args, x.1 ∈ scope.params ∧ x.2.Low) : Encodable code := by
  induction hp with
  | nil => simp
  | @cons param arg off n r code more rest hoff hn hr hstore _ ih =>
    rw [List.forall_mem_cons] at hargs
    obtain ⟨⟨hparam, harg⟩, hrest⟩ := hargs
    obtain ⟨hmem, hkind⟩ := List.mem_filter.1 hparam
    have hkind : param.kind = .parameter := by simpa using hkind
    obtain ⟨hin, -⟩ := h.entry_within hscope hmem hoff
    have htakes := h.takes_of_mem hscope hmem (by rw [hkind]; rfl)
    have hcallee := h.frames scope (List.mem_of_getElem? hscope)
    have hframe := h.frame_le
    have hnn := h.frameBytes_nonneg
    obtain ⟨h0, h1⟩ := hin
    obtain ⟨hwords, hpos, hle⟩ := h.words_le htakes (by omega) hn
    have hsub : (off - size).toInt = off.toInt - size.toInt :=
      toInt_sub_of_le (by omega) (by omega)
    rw [encodable_append]
    refine ⟨?_, ih hrest⟩
    refine hstore.encodable h (h.known_general hr) h.known_sp harg hle ⟨?_, ?_⟩
    · show (off - size).toInt ≤ 0
      omega
    · show -32772 ≤ (off - size).toInt - 4 * n.toInt
      omega

section

variable {recv : Expr} {name : String} {args : List Expr} {isNew : Bool} {type : Ty} {k : ℕ}
  {callee : MoonBackend.Function}

theorem PassesReceiver.encodable {use : Use}
    (hp : PassesReceiver c path e recv isNew callee.toSignature r code) (h : Roomy p c)
    (hr : r.Known) (he : Ready c use path (.call recv name args isNew type (some k)))
    (hk : c.layout.table.program.functions[k]? = some callee) (hm : callee.isMember = true) :
    Encodable code := by
  have hsig : c.layout.table.signature? k = some callee.toSignature := by
    rw [Table.signature?, hk]
    rfl
  have hshift : ∀ {className shift}, (∃ x ∈ p.classes, x.name = className) →
      c.layout.table.baseOffset className callee.className = .ok shift → Immediate shift := by
    intro className shift hD hshift
    obtain ⟨h0, h1⟩ := h.laid.base_bounds h.fits.classes hD hshift
    have hle := h.classes className
    have hnn := (h.laid.takes_object h.fits
      (h.laid.declares.class?_isSome.1 (by
        obtain ⟨hsome, -⟩ := h.laid.base_inside h.fits.classes hD hshift
        unfold Table.classSize at hsome
        cases hc : c.layout.table.class? callee.className with
        | none => rw [hc] at hsome; exact absurd rfl hsome
        | some s => rfl))).nonneg
    exact ⟨by omega, by omega⟩
  cases hp with
  | new _ hoff =>
    obtain ⟨h0, -⟩ := h.immediate_pair (h.low_of_slotOffset hoff)
    simp [hr, h.known_sp, h0]
  | on hnew hmissing hoff hbase =>
    subst hnew
    obtain ⟨h0, -⟩ := h.immediate_pair (h.low_of_slotOffset hoff)
    have hD := h.receiver_declared he hsig hm
    rw [if_neg (by rw [hmissing]; decide)] at hD
    simp [hr, h.known_sp, h0, encodable_adjust hr (hshift hD hbase)]
  | own hnew hmissing _ hoff hbase =>
    subst hnew
    obtain ⟨h0, -⟩ := h.immediate_pair (h.low_of_ownSlot hoff)
    have hD := h.receiver_declared he hsig hm
    rw [if_pos hmissing] at hD
    simp [hr, h.known_sp, h0, encodable_adjust hr (hshift hD hbase)]

theorem PlacesReceiver.encodable {use : Use} {scope : Scope} {size : Int64}
    (hp : PlacesReceiver c path (.call recv name args isNew type (some k)) recv isNew k
      callee.toSignature scope size code) (h : Roomy p c)
    (he : Ready c use path (.call recv name args isNew type (some k)))
    (hk : c.layout.table.program.functions[k]? = some callee)
    (hscope : c.layout.table.functions[k]? = some scope) (hsize : size.toInt = c.frameBytes) :
    Encodable code := by
  cases hp with
  | free => simp
  | @member slot off r code hm hreq hoff hr hpass =>
    have hkr := h.known_general hr
    obtain ⟨⟨h0, h1⟩, hnn'⟩ := h.entry_within hscope (Fitted.mem_of_requireSlot hreq) hoff
    have hcallee := h.frames _ (List.mem_of_getElem? hscope)
    have hframe := h.frame_le
    have hnn := h.frameBytes_nonneg
    have hsub : (off - size).toInt = off.toInt - size.toInt :=
      toInt_sub_of_le (by omega) (by omega)
    have himm : Immediate (off - size) := by
      unfold Immediate
      rw [hsub]
      omega
    simp [hpass.encodable h hkr he hk hm, hkr, h.known_sp, himm]

theorem FetchesResult.encodable {use : Use}
    (hf : FetchesResult c path (.call recv name args isNew type (Option.some k)) isNew
      callee.toSignature code) (h : Roomy p c)
    (he : Ready c use path (.call recv name args isNew type (Option.some k)))
    (hk : c.layout.table.program.functions[k]? = Option.some callee) : Encodable code := by
  cases hf with
  | none => simp
  | some hnew hvoid hoff hn hr =>
    subst hnew
    obtain ⟨-, -, k', f, heq, hf, -, -, htype⟩ := he.completed
    cases heq
    rw [Table.signature?, hk] at hf
    cases hf
    obtain rfl : type = callee.returns := htype
    obtain ⟨n, hn', hin⟩ := h.slot_within (he.slot_of_call (.inr hvoid)) hoff rfl
    have hframe := h.frame_le
    have h0 := hin.1
    have h1 := hin.2
    obtain ⟨hwords, -, hle⟩ := h.words_le hn' (by omega) hn
    exact encodable_copyCode h (h.known_general hr) h.known_sp h.known_result hle
      (Context.within_slot ⟨h0, by omega⟩) within_zero

theorem Calls.encodable {use : Use} {places : List Place}
    (hc : Calls c path (.call recv name args isNew type (some k)) recv isNew k places code)
    (h : Roomy p c) (he : Ready c use path (.call recv name args isNew type (some k)))
    (hp : Places c path 1 args places) : Encodable code := by
  obtain @⟨scope, callee, size, _, _, _, _, hscope, hk, hsize, hlen, hsaved, hpassed, hreceiver,
    hresult⟩ := hc
  obtain ⟨himm, hneg⟩ := h.immediate_size hsize
  have hsize := Fitted.frameSize_eq hsize
  have hargs : ∀ x ∈ scope.params.zip places, x.1 ∈ scope.params ∧ x.2.Low := fun x hx =>
    ⟨(List.of_mem_zip hx).1, h.low_places hp x.2 (List.of_mem_zip hx).2⟩
  simp [jumpCode, hsaved.encodable h he.receiver_of_call, hpassed.encodable h hscope hsize hargs,
    hreceiver.encodable h he hk hscope hsize, hresult.encodable h he hk, h.known_sp, h.known_link,
    himm, hneg]

end

/-! ### Input and output -/

theorem encodable_printCode {size : Int64} (h : Roomy p c) (hs : c.scope.frameSize = .ok size)
    (hr : r.Known) : Encodable (printCode c size r) := by
  obtain ⟨himm, hneg⟩ := h.immediate_size hs
  have hvalue : Immediate c.config.runtime.valueParam := by
    rw [h.stock]
    exact ⟨by decide, by decide⟩
  have hbuffer : Immediate c.config.runtime.bufferParam := by
    rw [h.stock]
    exact ⟨by decide, by decide⟩
  simp [printCode, h.known_sp, h.known_nought, h.known_link, h.known_result, hr, himm, hneg, hvalue,
    hbuffer]

theorem encodable_readCode {size : Int64} (h : Roomy p c) (hs : c.scope.frameSize = .ok size)
    (hr : r.Known) : Encodable (readCode c size r) := by
  obtain ⟨himm, hneg⟩ := h.immediate_size hs
  have hvalue : Immediate c.config.runtime.valueParam := by
    rw [h.stock]
    exact ⟨by decide, by decide⟩
  simp [readCode, h.known_sp, h.known_nought, h.known_link, hr, himm, hneg, hvalue]

theorem PrintsWord.encodable {place : Place} {i : Int64} (hw : PrintsWord c place i code)
    (h : Roomy p c) (hp : place.Low) (hi : i = 0 ∨ i = 1) : Encodable code := by
  obtain ⟨hs, hr, hload⟩ := hw
  have hk := h.known_general hr
  rw [encodable_append]
  exact ⟨hload.encodable h hk hp hi, encodable_printCode h hs hk⟩

theorem PrintsBytes.encodable {bytes : List UInt8} (hb : PrintsBytes c bytes code) (h : Roomy p c) :
    Encodable code := by
  obtain ⟨hr⟩ := hb
  have hk := h.known_general hr
  have himm : ∀ b : UInt8, Immediate (Int64.ofNat b.toNat) := by
    intro b
    have hlt := b.toNat_lt
    unfold Immediate
    rw [Int64.toInt_ofNat_of_lt (by omega)]
    omega
  simp only [encodable_plain, List.mem_flatMap, List.mem_cons, List.not_mem_nil, or_false]
  rintro item ⟨b, -, rfl | rfl⟩
  · simp [hk, h.known_nought, himm]
  · simp [hk]

theorem PrintsValue.encodable {t : Ty} {place : Place} (hv : PrintsValue c t place code)
    (h : Roomy p c) (hp : place.Low) : Encodable code := by
  cases hv with
  | integer _ hw => exact hw.encodable h hp (.inl rfl)
  | float _ hm hs hx =>
    simp [hm.encodable h hp (.inl rfl), hs.encodable h, hx.encodable h hp (.inr rfl)]

/-! ### Bodies and functions -/

section

variable {q : Expr → Bool} {t : Stmt → Bool}

theorem Piece.encodable (hp : Piece c q t code) (h : Roomy p c) : Encodable code := by
  have hslot : ∀ {off : Int64} {n : Int64}, Within 16384 0 off → n.toInt ≤ 4096 →
      Within 32772 (4 * n.toInt) off := fun hw hn => ⟨hw.1, by have := hw.2; omega⟩
  cases hp with
  | note text => simp
  | mark label => simp
  | jump label => simp
  | literal he hoff hr hm hx =>
    have hk := h.known_general hr
    obtain ⟨h0, h1⟩ := h.immediate_pair (h.low_of_slotOffset hoff)
    simp [hm.encodable h hk, hx.encodable h hk, hk, h.known_sp, h0, h1]
  | copy he _ _ _ hmat => exact hmat.encodable h he
  | unary he hsrc hu => exact hu.encodable h (h.low_place hsrc)
  | binary he _ hl hr hb => exact hb.encodable h (h.low_place hl) (h.low_place hr)
  | call he _ hplaces hc => exact hc.encodable h he hplaces
  | test he _ _ hp hr hload =>
    have hk := h.known_general hr
    simp [hload.encodable h hk (h.low_place hp) (.inl rfl), hk]
  | define he _ _ hp hlook hoff hn hr hmove =>
    obtain ⟨hmem, hk⟩ := h.kind_of_lookup hlook
    have htakes := h.takes_of_mem h.scope hmem (Standing.isAddress_of_kind hk)
    obtain ⟨⟨h0, h1⟩, -⟩ := h.entry_within h.scope hmem hoff
    have hframe : bytesOf c.scope.size ≤ 16384 := h.frame_le
    obtain ⟨-, -, hle⟩ := h.words_le htakes (by omega) hn
    exact hmove.encodable h (h.known_general hr) h.known_sp (h.low_place hp) hle
      (hslot (h.low_of_mem hmem hoff) hle)
  | assign ht he _ _ hp hloc hn hr _ hmove =>
    have hle := hloc.words_le h ht hn
    simp [hloc.encodable h ht, hmove.encodable h (h.known_general hr) (hloc.known h) (h.low_place hp)
      hle (hslot (hloc.low h ht) hle)]
  | print he hp hprint => exact hprint.encodable h (h.low_place hp)
  | newline hend =>
    cases hend with
    | none => simp
    | some hb => exact hb.encodable h
  | read ht _ _ _ hsize hr hloc =>
    have himm := ((hloc.low h ht).mono (by decide) (le_refl 0)).immediate
    simp [encodable_readCode h hsize (h.known_general hr), hloc.encodable h ht, hloc.known h,
      h.known_result, himm]
  | ret he _ _ hvoid hp hoff hn hr hmove =>
    have hb := h.headSlots
    rw [Demand.ofHead, backed_append, backed_append, if_neg hvoid] at hb
    obtain ⟨n, hn', hin⟩ := h.slot_within hb.1.2 (Fitted.slotOffset_of_ownSlot hoff) rfl
    have hframe := h.frame_le
    have h0 := hin.1
    have h1 := hin.2
    obtain ⟨-, -, hle⟩ := h.words_le hn' (by omega) hn
    exact hmove.encodable h (h.known_general hr) h.known_sp (h.low_place hp) hle
      (hslot (h.low_of_ownSlot hoff) hle)

theorem Composed.encodable (hc : Composed c q t code) (h : Roomy p c) : Encodable code := by
  induction hc with
  | nil => exact encodable_nil
  | piece hp => exact hp.encodable h
  | append _ _ ih ih' => exact encodable_append.2 ⟨ih, ih'⟩

end

theorem PointsToResult.encodable {returns : Ty} (hp : PointsToResult c returns code)
    (h : Roomy p c) : Encodable code := by
  cases hp with
  | none => exact encodable_nil
  | some _ hoff =>
    obtain ⟨h0, -⟩ := h.immediate_pair (h.low_of_ownSlot hoff)
    simp [h.known_result, h.known_sp, h0]

theorem Function.encodable {tag : String} {f : MoonBackend.Function} (hf : Function c tag f code)
    (h : Roomy p c) (hbody : StmtsReady c [] 0 f.body) : Encodable code := by
  have hruns : ∀ {body}, RunsAll c [] 0 f.body body → Encodable body := fun hr =>
    (hr.composed hbody (Stmt.allOf_true f.body)).encodable h
  cases hf with
  | entry _ _ hr => simp [hruns hr]
  | routine _ hoff hr hresult =>
    obtain ⟨h0, -⟩ := h.immediate_pair (h.low_of_ownSlot hoff)
    simp [hruns hr, hresult.encodable h, h.known_sp, h.known_link, h0]

end Emit

end MoonBackend
