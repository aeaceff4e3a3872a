import MoonBackend.Proofs.Compiled
import MoonBackend.Proofs.Emit.Mirror
import MoonBackend.Proofs.Emit.Readable

/-!
# Emission in lockstep

Every step of emission does the same under two configurations that a `Pairing` relates. The walk goes
through the steps in the order in which they are written; what it carries along is which pairs of
registers are held, since no more than eight are ever in use.
-/

namespace MoonBackend.Emit

open Text Code

variable {a b : Config} {P : Pairing a b} {c : Context}
  {held : List (Register × Register)} {r s : Register}

/-! ### Labels -/

theorem lockstep_label {start : String} (hs : start ∈ bodyStems) :
    Abreast P c held (freshLabel start) (freshLabel start) fun l m => l = m ∧ P.Spells l :=
  (Lockstep.freshLabel start).mono fun _ _ ⟨h, n, hn⟩ =>
    ⟨h, fun _ => hn ▸ isIdentifier_numbered start hs n⟩

/-- The labels in reach that are made of names are identifiers when the names are words. -/
structure Context.Worded (P : Pairing a b) (c : Context) : Prop where
  exit : P.Spells c.exit
  tag : ∀ k f, c.layout.table.program.functions[k]? = some f → P.Spells (c.tags.getD k "")

/-! ### Moves -/

theorem lockstep_constant (hr : P.writes r s) (v : Int64) :
    Abreast P c held (constant r v) (constant s v) (Code.Mirrors P) := by
  have hr' := P.reads_of_writes hr
  refine Lockstep.zero.bind fun z z' hz => ?_
  refine Lockstep.ite (fun _ => .pure (.plain (by simp [hr, hr', hz]))) fun _ => ?_
  exact Lockstep.ite (fun _ => .pure (.plain (by simp [hr, hr', hz]))) fun _ => .throw

theorem lockstep_load (hr : P.writes r s) (p : Place) (i : Int64) :
    Abreast P c held (load r p i) (load s p i) (Code.Mirrors P) := by
  cases p with
  | immediate v => exact Lockstep.ite (fun _ => lockstep_constant hr v) fun _ => .throw
  | slot off =>
    refine Lockstep.settled (settled_wordSize P) fun w => ?_
    refine Lockstep.stackPointer.bind fun sp sp' hsp => .pure (.plain ?_)
    simp [hr, P.reads_of_writes hsp]

theorem lockstep_copy (hk : held.length < 8) {dst dst' src src' : Location} (hd : dst.Mirrors P dst')
    (hs : src.Mirrors P src') (n : Int64) :
    Abreast P c held (copy dst src n) (copy dst' src' n) (Code.Mirrors P) := by
  refine Lockstep.settled (settled_wordSize P) fun w => ?_
  refine Lockstep.withRegister hk (fun _ => .pure _) (fun _ => .pure _) fun r s hr => ?_
  refine .pure (.plain ?_)
  have hr' := P.reads_of_writes hr
  have hd' := P.reads_of_writes hd.base
  have hs' := P.reads_of_writes hs.base
  rw [hd.off, hs.off]
  induction List.range n.toNatClampNeg with
  | nil => exact .nil
  | cons i is ih =>
    rw [List.flatMap_cons, List.flatMap_cons]
    exact .cons (by simp [hr, hs']) (.cons (by simp [hr', hd']) ih)

theorem lockstep_store (hk : held.length < 8) {dst dst' : Location} (hd : dst.Mirrors P dst')
    (p : Place) (n : Int64) :
    Abreast P c held (store dst p n) (store dst' p n) (Code.Mirrors P) := by
  cases p with
  | slot off => exact (Lockstep.frame off).bind fun l m hl => lockstep_copy hk hd hl.1 n
  | immediate v =>
    refine Lockstep.ite (fun _ => .throw) fun _ => Lockstep.withRegister hk
      (fun r => (Still.constant r v).bind fun _ => .pure _)
      (fun r => (Still.constant r v).bind fun _ => .pure _) fun r s hr => ?_
    refine (lockstep_constant hr v).bind fun code code' h => .pure (h.append (.plain ?_))
    rw [hd.off]
    simp [P.reads_of_writes hr, P.reads_of_writes hd.base]

/-! ### Locations -/

def LocatedTogether (P : Pairing a b) (x y : Code × Location) : Prop :=
  x.1.Mirrors P y.1 ∧ x.2.Mirrors P y.2

abbrev located (x y : Code × Location) : List (Register × Register) := x.2.pairs y.2

theorem lockstep_releaseLocation {l m : Location} (h : l.Mirrors P m) :
    Lockstep P c (l.pairs m) (fun _ _ => []) (releaseLocation l) (releaseLocation m)
      fun _ _ => True := by
  have hstep : Lockstep P c (l.pairs m) _ (releaseLocation l) (releaseLocation m) fun _ _ => True :=
    Lockstep.releaseLocation h fun hl => by simp [Location.pairs, hl]
  cases hl : l.held with
  | true => simpa [Location.pairs, hl] using hstep
  | false => simpa [Location.pairs, hl] using hstep

theorem lockstep_receiverLocation :
    Lockstep P c [] located receiverLocation receiverLocation (LocatedTogether P) := by
  refine Lockstep.context <| Lockstep.ite (fun _ => .throw) fun _ => ?_
  refine Lockstep.context <| Lockstep.context <| Lockstep.context ?_
  refine Lockstep.settled (.lift _) fun e => ?_
  refine (Lockstep.acquire (by simp)).bind fun r s hr => ?_
  refine Lockstep.settled (.lift _) fun off => Lockstep.stackPointer.bind fun sp sp' hsp => ?_
  refine Lockstep.answer (R := LocatedTogether P) ⟨.plain ?_, hr, rfl, rfl⟩ rfl
  simp [hr, P.reads_of_writes hsp]

theorem lockstep_toMember {l m : Location} (h : l.Mirrors P m) (className member : String) :
    Lockstep P c held (fun _ _ => held) (toMember l className member) (toMember m className member)
      fun l' m' => l'.Mirrors P m' ∧ l'.pairs m' = l.pairs m := by
  refine Lockstep.context <| Lockstep.settled (.lift _) fun off => ?_
  exact .pure ⟨⟨h.base, congrArg (· + off.1) h.off, h.held⟩, rfl⟩

theorem lockstep_accumulateIndex (hk : held.length < 8) (hr : P.writes r s)
    (later : List (Int64 × Path × Expr)) :
    Abreast P c held (accumulateIndex r later) (accumulateIndex s later) (Code.Mirrors P) := by
  have hr' := P.reads_of_writes hr
  induction later with
  | nil => exact .pure .nil
  | cons entry rest ih =>
    obtain ⟨extent, path, e⟩ := entry
    have hstill (idx x : Register) : Still (do
        let code ← load x (← placeOf path e) 0
        return code ++ plain [.reg3 .add idx idx x]) :=
      (Still.placeOf path e).bind fun _ => (Still.load _ _ _).bind fun _ => .pure _
    refine (Lockstep.withRegister (R := Code.Mirrors P) hk (hstill r) (hstill s)
      fun x y hx => ?_).bind fun add add' hadd => ?_
    · refine Lockstep.settled (.placeOf path e) fun p => (lockstep_load hx p 0).bind
        fun code code' h => .pure (h.append (.plain ?_))
      simp [hr, hr', P.reads_of_writes hx]
    · refine ih.bind fun more more' hmore => .pure (.append (.append (.plain ?_) hadd) hmore)
      simp [hr, hr']

theorem lockstep_firstIndex (hr : P.writes r s) (path : Path) (indices : List Expr) :
    Abreast P c held (firstIndex path r indices) (firstIndex path s indices)
      (Code.Mirrors P) := by
  cases indices with
  | nil => exact .pure .nil
  | cons e es => exact Lockstep.settled (.placeOf _ e) fun p => lockstep_load hr p 0

theorem lockstep_indexLocation {path : Path} {base base' : Location} (h : base.Mirrors P base')
    (dims : List Int64) (indices : List Expr) (elemSize : Int64) :
    Lockstep P c (base.pairs base') located (indexLocation path base dims indices elemSize)
      (indexLocation path base' dims indices elemSize) (LocatedTogether P) := by
  have hone := base.length_pairs base'
  rw [indexLocation_eq, indexLocation_eq]
  refine (Lockstep.acquire (by omega)).bind fun r s hr => ?_
  refine (lockstep_firstIndex hr path indices).bind fun first first' hfirst => ?_
  refine (lockstep_accumulateIndex (by simp; omega) hr _).bind fun rest rest' hrest => ?_
  have hrelease : Lockstep P c ((r, s) :: base.pairs base') (fun _ _ => [(r, s)])
      (releaseLocation base) (releaseLocation base') fun _ _ => True := by
    have hstep : Lockstep P c ((r, s) :: base.pairs base') _ (releaseLocation base)
        (releaseLocation base') fun _ _ => True :=
      Lockstep.releaseLocation h fun hl => by simp [Location.pairs, hl]
    cases hl : base.held with
    | false => simpa [Location.pairs, hl] using hstep
    | true =>
      simp only [Location.pairs, hl, if_true] at hstep ⊢
      -- the base may be the register taken last, as far as the two pools are concerned
      by_cases heq : (r, s) = (base.base, base'.base)
      · rw [← heq] at hstep ⊢
        simpa using hstep
      · rw [List.erase_cons_tail (by simpa using heq)] at hstep
        simpa using hstep
  refine hrelease.bind fun _ _ _ => ?_
  refine Lockstep.answer (R := LocatedTogether P)
    ⟨.append (hfirst.append hrest) (.plain ?_), hr, h.off, rfl⟩ rfl
  simp [hr, P.reads_of_writes hr, P.reads_of_writes h.base]

theorem lockstep_locate (path : Path) (e : Expr) :
    Lockstep P c [] located (locate path e) (locate path e) (LocatedTogether P) := by
  induction path, e using locate.induct with
  | case1 path name type =>
    rw [locate]
    refine Lockstep.settled (.resolve name) fun found => ?_
    split
    · exact .throw
    · refine Lockstep.settled (.lift _) fun off => (Lockstep.frame off).bind fun l m hl => ?_
      exact .answer ⟨.nil, hl.1⟩ (by simp [Location.pairs, hl.2])
    · refine lockstep_receiverLocation.bind fun x y hxy => Lockstep.context ?_
      refine (lockstep_toMember hxy.2 _ _).bind fun l m hl => ?_
      exact .answer ⟨hxy.1, hl.1⟩ hl.2
  | case2 path left member type ih =>
    rw [locate]
    refine ih.bind fun x y hxy => (lockstep_toMember hxy.2 _ _).bind fun l m hl => ?_
    exact .answer ⟨hxy.1, hl.1⟩ hl.2
  | case3 path base indices type ih =>
    rw [locate]
    refine Lockstep.context <| Lockstep.settled (.lift _) fun size => ih.bind fun x y hxy => ?_
    refine (lockstep_indexLocation hxy.2 _ indices _).bind fun x' y' hxy' => ?_
    exact .answer ⟨hxy.1.append hxy'.1, hxy'.2⟩ rfl
  | case4 path e hv hd hi =>
    rw [locate]
    · refine Lockstep.settled (.placeOf path e) fun p => (Lockstep.frame _).bind fun l m hl => ?_
      exact .answer ⟨.nil, hl.1⟩ (by simp [Location.pairs, hl.2])
    · exact hv
    · exact hd
    · exact hi

theorem lockstep_materialize (path : Path) (e : Expr) :
    Abreast P c [] (materialize path e) (materialize path e) (Code.Mirrors P) := by
  refine (lockstep_locate path e).bind fun x y hxy => ?_
  have hk : (located x y).length < 8 := Nat.lt_of_le_of_lt (Location.length_pairs _ _) (by decide)
  refine Lockstep.settled (.temporary path e) fun off => (Lockstep.frame off).bind fun l m hl => ?_
  refine Lockstep.settled (settled_words P e.type) fun n => ?_
  refine (lockstep_copy hk hl.1 hxy.2 n).bind fun move move' hmove => ?_
  exact (lockstep_releaseLocation hxy.2).bind fun _ _ _ => .pure (hxy.1.append hmove)

/-! ### Operators -/

theorem lockstep_unary (path : Path) (e : Expr) (op : UnaryOp) (t : Ty) (src : Place) :
    Abreast P c [] (unary path e op t src) (unary path e op t src) (Code.Mirrors P) := by
  refine Lockstep.settled (.temporary path e) fun off => Lockstep.stackPointer.bind fun sp sp' hsp => ?_
  refine Lockstep.zero.bind fun z z' hz => Lockstep.settled (settled_wordSize P) fun w => ?_
  have hsp' := P.reads_of_writes hsp
  refine .ite (fun _ => ?_) fun _ => .ite (fun _ => ?_) fun _ => .throw
  · refine Lockstep.withRegister (by simp)
      (fun r => (Still.load r src 0).bind fun _ => (Still.load r src 1).bind fun _ => .pure _)
      (fun r => (Still.load r src 0).bind fun _ => (Still.load r src 1).bind fun _ => .pure _)
      fun r s hr => ?_
    have hr' := P.reads_of_writes hr
    refine (lockstep_load hr src 0).bind fun mantissa mantissa' hm => ?_
    refine (lockstep_load hr src 1).bind fun exponent exponent' hx => .pure ?_
    refine ((Code.Mirrors.append (hm.append ?_) (.plain ?_)).append hx).append (.plain ?_)
    · split
      · exact .plain (by simp [hr, hr', hz])
      · exact .nil
    · simp [hr', hsp']
    · simp [hr', hsp']
  · refine Lockstep.withRegister (by simp) (fun r => (Still.load r src 0).bind fun _ => .pure _)
      (fun r => (Still.load r src 0).bind fun _ => .pure _) fun r s hr => ?_
    have hr' := P.reads_of_writes hr
    refine (lockstep_load hr src 0).bind fun value value' hv => .pure ?_
    refine (hv.append ?_).append (.plain (by simp [hr', hsp']))
    cases op with
    | plus => exact .nil
    | minus => exact .plain (by simp [hr, hr', hz])
    | not => exact .plain (by simp [hr, hr', hz])

theorem mirrors_integerOperation {x y x' y' z z' : Register} (hx : P.writes x x')
    (hy : P.writes y y') (hz : P.reads z z') (op : BinaryOp) :
    (integerOperation x y z op).Mirrors P (integerOperation x' y' z' op) := by
  have hx' := P.reads_of_writes hx
  have hy' := P.reads_of_writes hy
  cases op <;> exact .plain (by simp [hx, hx', hy, hy', hz])

theorem writes_getD {rs ss : List Register} (h : List.Forall₂ P.writes rs ss) {i : ℕ}
    (hi : i < rs.length) : P.writes (rs.getD i Item.unused) (ss.getD i Item.unused) := by
  have hi' := h.length_eq ▸ hi
  have := h.get hi hi'
  simpa [List.getD_eq_getElem?_getD, hi, hi'] using this

structure FloatRegisters.Mirrors (P : Pairing a b) (f g : FloatRegisters) : Prop where
  bigMantissa : P.writes f.bigMantissa g.bigMantissa
  bigExponent : P.writes f.bigExponent g.bigExponent
  smallMantissa : P.writes f.smallMantissa g.smallMantissa
  smallExponent : P.writes f.smallExponent g.smallExponent
  bigWidth : P.writes f.bigWidth g.bigWidth
  smallWidth : P.writes f.smallWidth g.smallWidth
  absolute : P.writes f.absolute g.absolute
  scratch : P.writes f.scratch g.scratch

theorem mirrors_swap {x y t z x' y' t' z' : Register} (hx : P.writes x x') (hy : P.writes y y')
    (ht : P.writes t t') (hz : P.reads z z') : (swap x y t z).Mirrors P (swap x' y' t' z') := by
  refine .plain ?_
  simp [hx, hy, ht, hz, P.reads_of_writes hx, P.reads_of_writes hy, P.reads_of_writes ht]

theorem lockstep_countDigits {dst src x t z dst' src' x' t' z' : Register} (hd : P.writes dst dst')
    (hs : P.writes src src') (hx : P.writes x x') (ht : P.writes t t') (hz : P.reads z z') :
    Abreast P c held (countDigits dst src x t z) (countDigits dst' src' x' t' z')
      (Code.Mirrors P) := by
  have hd' := P.reads_of_writes hd
  have hs' := P.reads_of_writes hs
  have hx' := P.reads_of_writes hx
  have ht' := P.reads_of_writes ht
  refine (lockstep_label (by decide)).bind fun abs _ h => (lockstep_label (by decide)).bind
    fun loop _ h' => (lockstep_label (by decide)).bind fun stop _ h'' => ?_
  obtain ⟨rfl, habs⟩ := h
  obtain ⟨rfl, hloop⟩ := h'
  obtain ⟨rfl, hstop⟩ := h''
  refine .pure ((((Code.Mirrors.plain ?_).append ?_).append (.plain ?_)).append (.mark hstop))
  · simp [hx, hx', hs', ht, ht', hz, habs]
  · exact .cons (.labeled habs (by simp [hd, hd', hz]))
      (.cons (.labeled hloop (by simp [ht, ht', hx'])) .nil)
  · simp [hd, hd', hx, hx', ht', hstop, hloop]

theorem lockstep_widen {m width other t m' width' other' t' : Register} (hm : P.writes m m')
    (hw : P.writes width width') (ho : P.writes other other') (ht : P.writes t t') :
    Abreast P c held (widen m width other t) (widen m' width' other' t') (Code.Mirrors P) := by
  have hm' := P.reads_of_writes hm
  have hw' := P.reads_of_writes hw
  have ho' := P.reads_of_writes ho
  have ht' := P.reads_of_writes ht
  refine (lockstep_label (by decide)).bind fun loop _ h =>
    (lockstep_label (by decide)).bind fun stop _ h' => ?_
  obtain ⟨rfl, hloop⟩ := h
  obtain ⟨rfl, hstop⟩ := h'
  refine .pure (((Code.Mirrors.cons (.labeled hloop ?_) .nil).append (.plain ?_)).append (.mark hstop))
  · simp [hw', ho', ht, ht']
  · simp [hm, hm', hw, hw', ht', hstop, hloop]

theorem lockstep_floatSum {f g : FloatRegisters} (h : f.Mirrors P g) {sp sp' z z' : Register}
    (hsp : P.writes sp sp') (hz : P.reads z z') {align nonZero done : String} (halign : P.Spells align)
    (hnonZero : P.Spells nonZero) (hdone : P.Spells done) (dst word : Int64) :
    Abreast P c held (floatSum f align nonZero done dst word sp z)
      (floatSum g align nonZero done dst word sp' z') (Code.Mirrors P) := by
  obtain ⟨hbm, hbx, hsm, hsx, hbw, hsw, habs, ht⟩ := h
  have hbm' := P.reads_of_writes hbm
  have hbx' := P.reads_of_writes hbx
  have hsm' := P.reads_of_writes hsm
  have hsx' := P.reads_of_writes hsx
  have hbw' := P.reads_of_writes hbw
  have hsw' := P.reads_of_writes hsw
  have ht' := P.reads_of_writes ht
  have hsp' := P.reads_of_writes hsp
  refine (lockstep_countDigits hbw hbm habs ht hz).bind fun bigDigits _ hbig => ?_
  refine (lockstep_countDigits hsw hsm habs ht hz).bind fun smallDigits _ hsmall => ?_
  refine (lockstep_widen hbm hbw hsw ht).bind fun widenBig _ hwbig => ?_
  refine (lockstep_widen hsm hsw hbw ht).bind fun widenSmall _ hwsmall => ?_
  refine (lockstep_label (by decide)).bind fun trim _ h =>
    (lockstep_label (by decide)).bind fun trimmed _ h' => ?_
  obtain ⟨rfl, htrim⟩ := h
  obtain ⟨rfl, htrimmed⟩ := h'
  refine (lockstep_countDigits hsm hbm habs ht hz).bind fun sumDigits _ hsum => .pure ?_
  have horder : (plain [.reg3 .cgt f.scratch f.smallExponent f.bigExponent, .bz f.scratch align]).Mirrors P
      (plain [.reg3 .cgt g.scratch g.smallExponent g.bigExponent, .bz g.scratch align]) :=
    .plain (by simp [ht, ht', hsx', hbx', halign])
  have hhead := (((horder.append (mirrors_swap hbm hsm ht hz)).append
    (mirrors_swap hbx hsx ht hz)).append (.mark halign)).append hbig |>.append hsmall
  refine (((((((Code.Mirrors.append (.append (hhead.append (.plain ?_)) hwbig) hwsmall).append
    (.plain ?_)).append ?_).append (.plain ?_)).append (.mark htrimmed)).append hsum).append
    (.plain ?_)).append (.mark hdone)
  · simp [ht, ht', hbx', hsx', hsw, hsw']
  · simp [ht, ht', hbm, hbm', hsm, hsm', hsp', hz, hnonZero, hdone]
  · exact .cons (.labeled hnonZero (by simp [hsw, hsw', hz]))
      (.cons (.labeled htrim (by simp [ht, ht', hbm'])) .nil)
  · simp [ht', hbm, hbm', hsw, hsw', htrimmed, htrim]
  · simp [ht, ht', hbx', hsm', hbw', hsw', hsp', hbm']

/-- What an expression is shown as in comments is written on one line. -/
abbrev Shown (P : Pairing a b) (e : Expr) : Prop := P.named → OneLine e.text

theorem lockstep_floatAddSub (path : Path) {e : Expr} (he : Shown P e) (op : BinaryOp)
    (l r : Place) :
    Abreast P c [] (floatAddSub path e op l r) (floatAddSub path e op l r) (Code.Mirrors P) := by
  refine Lockstep.settled (.temporary path e) fun dst => Lockstep.settled (settled_wordSize P) fun w => ?_
  refine Lockstep.stackPointer.bind fun sp sp' hsp => Lockstep.zero.bind fun z z' hz => ?_
  refine (lockstep_label (by decide)).bind fun align _ h => (lockstep_label (by decide)).bind
    fun nonZero _ h' => (lockstep_label (by decide)).bind fun done _ h'' =>
      Lockstep.comment fun note note' hnote => ?_
  obtain ⟨rfl, halign⟩ := h
  obtain ⟨rfl, hnonZero⟩ := h'
  obtain ⟨rfl, hdone⟩ := h''
  have hstill (sp z : Register) (rs : List Register) : Still (do
      let reg (i : Nat) : Register := rs.getD i Item.unused
      let f : FloatRegisters := ⟨reg 0, reg 1, reg 2, reg 3, reg 4, reg 5, reg 6, reg 7⟩
      let leftMantissa ← Emit.load f.smallMantissa l 0
      let leftExponent ← Emit.load f.smallExponent l 1
      let rightMantissa ← Emit.load f.bigMantissa r 0
      let rightExponent ← Emit.load f.bigExponent r 1
      let sign := if op = .sub then plain [.reg3 .sub f.bigMantissa z f.bigMantissa] else []
      let sum ← floatSum f align nonZero done dst w sp z
      return leftMantissa ++ leftExponent ++ rightMantissa ++ rightExponent ++ sign ++ sum) :=
    (Still.load _ l 0).bind fun _ => (Still.load _ l 1).bind fun _ => (Still.load _ r 0).bind fun _ =>
      (Still.load _ r 1).bind fun _ => (Still.floatSum _ _ _ _ _ _ _ _).bind fun _ => .pure _
  refine Lockstep.bind (R := Code.Mirrors P) (Lockstep.withRegisters (by simp) (hstill sp z)
    (hstill sp' z') fun rs ss hn hrs => ?_) fun body body' hbody => .pure ((hnote ?_).append hbody)
  · have hreg (i : ℕ) (hi : i < 8) := writes_getD hrs (hn ▸ hi)
    have hf : FloatRegisters.Mirrors P
        ⟨rs.getD 0 Item.unused, rs.getD 1 Item.unused, rs.getD 2 Item.unused, rs.getD 3 Item.unused,
          rs.getD 4 Item.unused, rs.getD 5 Item.unused, rs.getD 6 Item.unused, rs.getD 7 Item.unused⟩
        ⟨ss.getD 0 Item.unused, ss.getD 1 Item.unused, ss.getD 2 Item.unused, ss.getD 3 Item.unused,
          ss.getD 4 Item.unused, ss.getD 5 Item.unused, ss.getD 6 Item.unused, ss.getD 7 Item.unused⟩ :=
      ⟨hreg 0 (by decide), hreg 1 (by decide), hreg 2 (by decide), hreg 3 (by decide),
        hreg 4 (by decide), hreg 5 (by decide), hreg 6 (by decide), hreg 7 (by decide)⟩
    refine (lockstep_load hf.smallMantissa l 0).bind fun lm lm' hlm => ?_
    refine (lockstep_load hf.smallExponent l 1).bind fun lx lx' hlx => ?_
    refine (lockstep_load hf.bigMantissa r 0).bind fun rm rm' hrm => ?_
    refine (lockstep_load hf.bigExponent r 1).bind fun rx rx' hrx => ?_
    refine (lockstep_floatSum hf hsp hz halign hnonZero hdone dst w).bind fun sum sum' hsum => .pure ?_
    refine ((((hlm.append hlx).append hrm).append hrx).append ?_).append hsum
    split
    · have hm := P.reads_of_writes hf.bigMantissa
      exact .plain (by simpa using ⟨hf.bigMantissa, hm, hz, hm⟩)
    · exact .nil
  · intro hnamed
    rw [oneLine_append]
    exact ⟨by decide, he hnamed⟩

theorem lockstep_floatLiteral (path : Path) (text : String) :
    Abreast P c [] (floatLiteral path text) (floatLiteral path text) fun x y =>
      x.Mirrors P y ∧ OneLine text := by
  unfold floatLiteral
  cases hparse : Decimal.parse text with
  | error cause => exact .throw
  | ok v =>
    refine Lockstep.settled (.temporary path (.float text)) fun off =>
      Lockstep.settled (settled_wordSize P) fun w => Lockstep.stackPointer.bind fun sp sp' hsp => ?_
    refine Lockstep.withRegister (by simp)
      (fun r => (Still.constant r _).bind fun _ => (Still.constant r _).bind fun _ => .pure _)
      (fun r => (Still.constant r _).bind fun _ => (Still.constant r _).bind fun _ => .pure _)
      fun r s hr => ?_
    refine (lockstep_constant hr _).bind fun mantissa mantissa' hm => ?_
    refine (lockstep_constant hr _).bind fun exponent exponent' hx => .pure ⟨?_, Decimal.oneLine_of_parse hparse⟩
    have hr' := P.reads_of_writes hr
    have hsp' := P.reads_of_writes hsp
    exact ((hm.append (.plain (by simp [hr', hsp']))).append hx).append (.plain (by simp [hr', hsp']))

theorem lockstep_binary (path : Path) {e : Expr} (he : Shown P e) (op : BinaryOp) (t : Ty)
    (l r : Place) :
    Abreast P c [] (binary path e op t l r) (binary path e op t l r) (Code.Mirrors P) := by
  refine Lockstep.ite (fun _ => Lockstep.ite (fun _ => lockstep_floatAddSub path he op l r)
    fun _ => .throw) fun _ => Lockstep.ite (fun _ => .throw) fun _ => ?_
  refine Lockstep.settled (.temporary path e) fun off => Lockstep.stackPointer.bind fun sp sp' hsp =>
    Lockstep.zero.bind fun z z' hz => ?_
  refine Lockstep.withRegisters (by simp)
    (fun rs => (Still.load _ l 0).bind fun _ => (Still.load _ r 0).bind fun _ => .pure _)
    (fun rs => (Still.load _ l 0).bind fun _ => (Still.load _ r 0).bind fun _ => .pure _)
    fun rs ss hn hrs => ?_
  have hx := writes_getD hrs (i := 0) (by omega)
  have hy := writes_getD hrs (i := 1) (by omega)
  refine (lockstep_load hx l 0).bind fun left left' hl => ?_
  refine (lockstep_load hy r 0).bind fun right right' hr => .pure ?_
  refine ((hl.append hr).append (mirrors_integerOperation hx hy hz op)).append (.plain ?_)
  simpa using ⟨P.reads_of_writes hx, P.reads_of_writes hsp⟩

/-! ### Calls -/

theorem lockstep_addressOf {l m : Location} (h : l.Mirrors P m) :
    Lockstep P c (l.pairs m) (fun x y => [(x.2, y.2)]) (addressOf l) (addressOf m) fun x y =>
      x.1.Mirrors P y.1 ∧ P.writes x.2 y.2 := by
  have hb' := P.reads_of_writes h.base
  unfold addressOf
  rw [← h.held, ← h.off]
  cases hl : l.held with
  | true =>
    refine Lockstep.answer ⟨?_, h.base⟩ (by simp [Location.pairs, hl])
    split
    · exact .nil
    · exact .plain (by simp [h.base, hb'])
  | false =>
    have hheld : l.pairs m = [] := by simp [Location.pairs, hl]
    rw [hheld]
    refine (Lockstep.acquire (by simp)).bind fun r s hr => ?_
    refine Lockstep.answer (R := fun x y : Code × Register => x.1.Mirrors P y.1 ∧ P.writes x.2 y.2)
      ⟨.plain ?_, hr⟩ rfl
    simp [hr, P.reads_of_writes hr, hb']

theorem mirrors_adjust (hr : P.writes r s) (off : Int64) : (adjust r off).Mirrors P (adjust s off) := by
  unfold adjust
  split
  · exact .nil
  · exact .plain (by simp [hr, P.reads_of_writes hr])

theorem lockstep_passReceiver (path : Path) (e recv : Expr) (isNew : Bool) (callee : Signature)
    (hr : P.writes r s) :
    Abreast P c held (passReceiver path e recv isNew callee r) (passReceiver path e recv isNew callee s)
      (Code.Mirrors P) := by
  have hr' := P.reads_of_writes hr
  refine Lockstep.stackPointer.bind fun sp sp' hsp => Lockstep.context ?_
  have hsp' := P.reads_of_writes hsp
  refine Lockstep.ite (fun _ => ?_) fun _ => Lockstep.ite (fun _ => ?_) fun _ => ?_
  · exact Lockstep.settled (.temporary path e) fun off => .pure (.plain (by simp [hr, hr', hsp']))
  · refine Lockstep.settled (.slotOffset _ _) fun off => Lockstep.settled (.lift _) fun shift => .pure ?_
    exact .append (.plain (by simp [hr, hsp'])) (mirrors_adjust hr shift)
  · refine Lockstep.context <| Lockstep.ite (fun _ => .throw) fun _ => ?_
    refine Lockstep.settled (.ownSlot _) fun off => Lockstep.settled (.lift _) fun shift => .pure ?_
    exact .append (.plain (by simp [hr, hsp'])) (mirrors_adjust hr shift)

theorem lockstep_passArguments (size : Int64) (args : List (Entry × Place)) :
    Abreast P c [] (passArguments size args) (passArguments size args) (Code.Mirrors P) := by
  induction args with
  | nil => exact .pure .nil
  | cons arg rest ih =>
    obtain ⟨param, p⟩ := arg
    rw [passArguments]
    refine Lockstep.settled (.lift _) fun off => (Lockstep.frame _).bind fun l m hl => ?_
    refine Lockstep.settled (settled_words P _) fun n => ?_
    refine (lockstep_store (by simp) hl.1 p n).bind fun code code' hcode => ?_
    exact ih.bind fun more more' hmore => .pure (hcode.append hmore)

theorem lockstep_saveReceiver (path : Path) (recv : Expr) :
    Abreast P c [] (saveReceiver path recv) (saveReceiver path recv) (Code.Mirrors P) := by
  refine Lockstep.ite (fun _ => .pure .nil) fun _ => Lockstep.context ?_
  refine Lockstep.settled (.lift _) fun slot => (lockstep_locate path recv).bind fun x y hxy => ?_
  refine (lockstep_addressOf hxy.2).bind fun x' y' hxy' => Lockstep.settled (.lift _) fun off => ?_
  have hrelease : Lockstep P c [(x'.2, y'.2)] (fun _ _ => []) (release x'.2) (release y'.2)
      fun _ _ => True := by
    have hstep : Lockstep P c [(x'.2, y'.2)] _ (release x'.2) (release y'.2) fun _ _ => True :=
      Lockstep.release List.mem_cons_self
    simpa using hstep
  refine hrelease.bind fun _ _ _ => Lockstep.stackPointer.bind fun sp sp' hsp => .pure ?_
  refine (hxy.1.append hxy'.1).append (.plain ?_)
  simp [P.reads_of_writes hsp, P.reads_of_writes hxy'.2]

theorem lockstep_placeReceiver (path : Path) (e recv : Expr) (isNew : Bool) (target : ℕ)
    (callee : Signature) (scope : Scope) (size : Int64) {sp sp' : Register} (hsp : P.writes sp sp') :
    Abreast P c [] (placeReceiver path e recv isNew target callee scope size sp)
      (placeReceiver path e recv isNew target callee scope size sp') (Code.Mirrors P) := by
  refine Lockstep.ite (fun _ => Lockstep.settled (.lift _) fun slot => ?_) fun _ => .pure .nil
  refine Lockstep.withRegister (by simp)
    (fun r => (Still.passReceiver _ _ _ _ _ r).bind fun _ => (Still.lift _).bind fun _ => .pure _)
    (fun r => (Still.passReceiver _ _ _ _ _ r).bind fun _ => (Still.lift _).bind fun _ => .pure _)
    fun r s hr => ?_
  refine (lockstep_passReceiver path e recv isNew callee hr).bind fun code code' hcode => ?_
  refine Lockstep.settled (.lift _) fun off => .pure (hcode.append (.plain ?_))
  simp [P.reads_of_writes hr, P.reads_of_writes hsp]

theorem lockstep_fetchResult (path : Path) (e : Expr) (isNew : Bool) (callee : Signature) :
    Abreast P c [] (fetchResult path e isNew callee) (fetchResult path e isNew callee)
      (Code.Mirrors P) := by
  refine Lockstep.ite (fun _ => ?_) fun _ => .pure .nil
  refine Lockstep.settled (.temporary path e) fun off => (Lockstep.frame off).bind fun l m hl => ?_
  refine Lockstep.resultRegister.bind fun r s hr => Lockstep.settled (settled_words P _) fun n => ?_
  have hsrc : Location.Mirrors P ⟨r, 0, false⟩ ⟨s, 0, false⟩ := ⟨hr, rfl, rfl⟩
  exact lockstep_copy (by decide) hl.1 hsrc n

theorem Lockstep.congr {α β : Type} {after : α → β → List (Register × Register)} {x x' : Emit α}
    {y y' : Emit β} {R : α → β → Prop} (hx : ∀ s, eval x (c.under a) s = eval x' (c.under a) s)
    (hy : ∀ s, eval y (c.under b) s = eval y' (c.under b) s)
    (h : Lockstep P c held after x' y' R) : Lockstep P c held after x y R := by
  intro s t hp hl
  rw [hx, hy]
  exact h s t hp hl

section

variable (hc : c.Worded P)

include hc

theorem lockstep_callSequence (path : Path) {e : Expr} (he : Shown P e) (recv : Expr) (isNew : Bool)
    (target : ℕ) (args : List Place) :
    Abreast P c [] (callSequence path e recv isNew target args)
      (callSequence path e recv isNew target args) (Code.Mirrors P) := by
  cases hs : c.layout.table.functions[target]? with
  | none =>
    exact Lockstep.congr (eval_callSequence_unresolved (c := c.under a) (.inl hs))
      (eval_callSequence_unresolved (c := c.under b) (.inl hs)) (.throw (f := .unresolvedCall e.text))
  | some scope =>
    cases hf : c.layout.table.program.functions[target]? with
    | none =>
      exact Lockstep.congr (eval_callSequence_unresolved (c := c.under a) (.inr hf))
        (eval_callSequence_unresolved (c := c.under b) (.inr hf)) (.throw (f := .unresolvedCall e.text))
    | some callee =>
      refine Lockstep.congr (eval_callSequence hs hf) (eval_callSequence hs hf) ?_
      refine Lockstep.stackPointer.bind fun sp sp' hsp => Lockstep.comment fun note note' hnote => ?_
      refine (lockstep_saveReceiver _ recv).bind fun saved saved' hsaved => ?_
      refine Lockstep.settled .frameSize fun size => Lockstep.ite (fun _ => .throw) fun _ => ?_
      refine (lockstep_passArguments size _).bind fun passed passed' hpassed => ?_
      refine (lockstep_placeReceiver path e recv isNew target _ scope size hsp).bind
        fun receiver receiver' hreceiver => Lockstep.link.bind fun lk lk' hlk => ?_
      refine (lockstep_fetchResult path e isNew _).bind fun result result' hresult => .pure ?_
      refine (((((hnote fun hn => ?_).append hsaved).append hpassed).append hreceiver).append
        (.plain ?_)).append hresult
      · rw [oneLine_append]
        exact ⟨by decide, he hn⟩
      · have htag := hc.tag target callee hf
        rw [List.getD_eq_getElem?_getD] at htag
        simp [hsp, P.reads_of_writes hsp, hlk, htag]

/-! ### Expressions -/

omit hc in
theorem lockstep_checkOperand (path : Path) (e : Expr) :
    Abreast P c [] (checkOperand path e) (checkOperand path e) fun _ _ => True := by
  cases e with
  | var | dot | index => exact .pure trivial
  | _ => exact Lockstep.settled (.placeOf _ _) fun _ => .pure trivial

def Evaluated (P : Pairing a b) (e : Expr) (x y : Code) : Prop := x.Mirrors P y ∧ Shown P e

def EvaluatedAll (P : Pairing a b) (es : List Expr) (x y : Code × List Place) : Prop :=
  x.1.Mirrors P y.1 ∧ x.2 = y.2 ∧ (P.named → ∀ s ∈ Expr.texts es, OneLine s)

omit hc in
theorem shown_call {recv : Expr} {name : String} {args : List Expr} {isNew : Bool} {type : Ty}
    {target : Option ℕ} (hn : P.named → OneLiners (Expr.call recv name args isNew type target).names)
    (hrecv : ¬ recv.isMissing = true → Shown P recv)
    (hargs : P.named → ∀ s ∈ Expr.texts args, OneLine s) :
    Shown P (.call recv name args isNew type target) := by
  intro h
  have hn := hn h
  rw [Expr.names, oneLiners_append, oneLiners_cons] at hn
  have hhead : OneLine (if recv.isMissing then name else recv.text ++ "." ++ name) := by
    split
    · exact hn.2.1
    · rename_i hm
      rw [oneLine_append, oneLine_append]
      exact ⟨⟨hrecv hm h, by decide⟩, hn.2.1⟩
  simp only [Expr.text, oneLine_append]
  exact ⟨⟨⟨hhead, by decide⟩, oneLine_intercalate (hargs h)⟩, by decide⟩

omit hc in
mutual

/-- The value of an expression, or the values that its location needs, are computed in lockstep. What
was emitted is shown on one line: its names are, and so is every literal that could be read. -/
theorem lockstep_evaluate (hc : c.Worded P) (use : Use) (path : Path) : ∀ e : Expr, (P.named → OneLiners e.names) →
    Abreast P c [] (evaluate use path e) (evaluate use path e) (Evaluated P e)
  | .missing, _ => by
    rw [evaluate]
    exact .throw
  | .int v, _ => by
    rw [evaluate]
    exact .pure ⟨.nil, fun _ => oneLine_decimal _⟩
  | .float text, _ => by
    rw [evaluate]
    exact (lockstep_floatLiteral path text).mono fun x y h => ⟨h.1, fun _ => h.2⟩
  | .var name type, hn => by
    have hshown : Shown P (.var name type) := fun h => hn h _ List.mem_cons_self
    rw [evaluate]
    refine .ite (fun _ => .pure ⟨.nil, hshown⟩) fun _ => Lockstep.settled (.resolve name) fun found => ?_
    split
    · exact .throw
    · exact .pure ⟨.nil, hshown⟩
    · exact (lockstep_materialize path _).mono fun x y h => ⟨h, hshown⟩
  | .dot left member type, hn => by
    rw [Expr.names] at hn
    have hleft := fun h => (oneLiners_append.1 (hn h)).1
    rw [evaluate]
    refine (lockstep_evaluate hc .location (0 :: path) left hleft).bind fun x y hxy =>
      (lockstep_checkOperand _ left).bind fun _ _ _ => ?_
    have hshown : Shown P (.dot left member type) := fun h => by
      rw [Expr.text, oneLine_append, oneLine_append]
      exact ⟨⟨hxy.2 h, by decide⟩, (oneLiners_append.1 (hn h)).2 _ List.mem_cons_self⟩
    refine .ite (fun _ => .pure ⟨hxy.1, hshown⟩) fun _ => ?_
    exact (lockstep_materialize path _).bind fun move move' hmove => .pure ⟨hxy.1.append hmove, hshown⟩
  | .index base indices type, hn => by
    rw [Expr.names] at hn
    have hbase := fun h => (oneLiners_append.1 (hn h)).1
    have hindices := fun h => (oneLiners_append.1 (hn h)).2
    rw [evaluate]
    refine (lockstep_evaluate hc .location (0 :: path) base hbase).bind fun x y hxy =>
      (lockstep_checkOperand _ base).bind fun _ _ _ => ?_
    refine (lockstep_evaluateAll hc path 1 indices hindices).bind fun x' y' hxy' => ?_
    have hshown : Shown P (.index base indices type) := fun h => by
      rw [Expr.text, oneLine_append]
      refine ⟨hxy.2 h, oneLine_join fun s hs => ?_⟩
      obtain ⟨text, htext, rfl⟩ := List.mem_map.1 hs
      rw [oneLine_append, oneLine_append]
      exact ⟨⟨by decide, hxy'.2.2 h text htext⟩, by decide⟩
    refine .ite (fun _ => .pure ⟨hxy.1.append hxy'.1, hshown⟩) fun _ => ?_
    exact (lockstep_materialize path _).bind fun move move' hmove =>
      .pure ⟨(hxy.1.append hxy'.1).append hmove, hshown⟩
  | .unary op operand type, hn => by
    rw [Expr.names] at hn
    rw [evaluate]
    refine (lockstep_evaluate hc .value (0 :: path) operand hn).bind fun x y hxy => ?_
    refine Lockstep.settled (.placeOf _ operand) fun src => ?_
    refine (lockstep_unary path _ op operand.type src).bind fun more more' hmore =>
      .pure ⟨hxy.1.append hmore, fun h => ?_⟩
    have htext := hxy.2 h
    rw [Expr.text]
    split <;> simp only [oneLine_append]
    · exact ⟨⟨by decide, htext⟩, by decide⟩
    · exact ⟨⟨⟨by decide, UnaryOp.oneLine_text _⟩, htext⟩, by decide⟩
  | .binary op left right type, hn => by
    rw [Expr.names] at hn
    have hleft := fun h => (oneLiners_append.1 (hn h)).1
    have hright := fun h => (oneLiners_append.1 (hn h)).2
    rw [evaluate]
    refine (lockstep_evaluate hc .value (0 :: path) left hleft).bind fun x y hxy => ?_
    refine Lockstep.settled (.placeOf _ left) fun l => ?_
    refine (lockstep_evaluate hc .value (1 :: path) right hright).bind fun x' y' hxy' => ?_
    refine Lockstep.settled (.placeOf _ right) fun r => ?_
    have hshown : Shown P (.binary op left right type) := fun h => by
      simp only [Expr.text, oneLine_append]
      exact ⟨⟨⟨⟨⟨⟨by decide, hxy.2 h⟩, by decide⟩, BinaryOp.oneLine_text _⟩, by decide⟩, hxy'.2 h⟩,
        by decide⟩
    exact (lockstep_binary path hshown op left.type l r).bind fun more more' hmore =>
      .pure ⟨(hxy.1.append hxy'.1).append hmore, hshown⟩
  | .call recv name args isNew type none, _ => by
    rw [evaluate]
    exact .throw
  | .call recv name args isNew type (some target), hn => by
    have hrecv := fun h => (oneLiners_append.1 (hn h)).1
    have hargs := fun h => (oneLiners_cons.1 (oneLiners_append.1 (hn h)).2).2
    have hoperands : Abreast P c [] (receiverOperands path recv) (receiverOperands path recv)
        fun x y => x.Mirrors P y ∧ (¬ recv.isMissing = true → Shown P recv) := by
      refine .ite (fun hm => .pure ⟨.nil, fun h => absurd hm h⟩) fun _ => ?_
      refine (lockstep_evaluate hc .location (0 :: path) recv hrecv).bind fun x y hxy => ?_
      exact (lockstep_checkOperand _ recv).bind fun _ _ _ => .pure ⟨hxy.1, fun _ => hxy.2⟩
    rw [evaluate_call]
    refine hoperands.bind fun x y hxy =>
      (lockstep_evaluateAll hc path 1 args hargs).bind fun x' y' hxy' => ?_
    have hshown := shown_call hn hxy.2 hxy'.2.2
    obtain ⟨code, places⟩ := x'
    obtain ⟨code', places'⟩ := y'
    obtain ⟨hcode, rfl, -⟩ := hxy'
    exact (lockstep_callSequence hc path hshown recv isNew target places).bind
      fun sequence sequence' hsequence => .pure ⟨(hxy.1.append hcode).append hsequence, hshown⟩

theorem lockstep_evaluateAll (hc : c.Worded P) (path : Path) (i : ℕ) : ∀ es : List Expr,
    (P.named → OneLiners (Expr.namesOf es)) →
    Abreast P c [] (evaluateAll path i es) (evaluateAll path i es) (EvaluatedAll P es)
  | [], _ => by
    rw [evaluateAll]
    exact .pure ⟨.nil, rfl, fun _ => by simp [Expr.texts]⟩
  | e :: es, hn => by
    rw [Expr.namesOf] at hn
    have he := fun h => (oneLiners_append.1 (hn h)).1
    have hes := fun h => (oneLiners_append.1 (hn h)).2
    rw [evaluateAll]
    refine (lockstep_evaluate hc .value (i :: path) e he).bind fun x y hxy => ?_
    refine Lockstep.settled (.placeOf _ e) fun p => ?_
    refine (lockstep_evaluateAll hc path (i + 1) es hes).bind fun x' y' hxy' =>
      .pure ⟨hxy.1.append hxy'.1, congrArg (p :: ·) hxy'.2.1, fun h => ?_⟩
    rw [Expr.texts, List.forall_mem_cons]
    exact ⟨hxy.2 h, hxy'.2.2 h⟩

end

theorem lockstep_value (path : Path) {e : Expr} (hn : P.named → OneLiners e.names) :
    Abreast P c [] (value path e) (value path e) fun x y => Evaluated P e x.1 y.1 ∧ x.2 = y.2 :=
  (lockstep_evaluate hc .value path e hn).bind fun _ _ hxy =>
    Lockstep.settled (.placeOf path e) fun _ => .pure ⟨hxy, rfl⟩

theorem lockstep_operands (path : Path) {e : Expr} (hn : P.named → OneLiners e.names) :
    Abreast P c [] (operands path e) (operands path e) (Evaluated P e) :=
  (lockstep_evaluate hc .location path e hn).bind fun _ _ hxy =>
    (lockstep_checkOperand path e).bind fun _ _ _ => .pure hxy

/-! ### Statements -/

omit hc in
theorem lockstep_printWord (p : Place) (i : Int64) :
    Abreast P c [] (printWord p i) (printWord p i) (Code.Mirrors P) := by
  refine Lockstep.context ?_
  simp only [← P.runtime]
  refine Lockstep.settled .frameSize fun size => Lockstep.stackPointer.bind fun sp sp' hsp =>
    Lockstep.zero.bind fun z z' hz => Lockstep.link.bind fun lk lk' hlk =>
      Lockstep.resultRegister.bind fun result result' hresult => ?_
  refine Lockstep.withRegister (by simp) (fun r => (Still.load r p i).bind fun _ => .pure _)
    (fun r => (Still.load r p i).bind fun _ => .pure _) fun r s hr => ?_
  refine (lockstep_load hr p i).bind fun value value' hvalue => .pure (hvalue.append (.plain ?_))
  have hnames : P.Spells a.runtime.bufferLabel ∧ P.Spells a.runtime.intToString
      ∧ P.Spells a.runtime.printString :=
    ⟨fun h => P.runtimeNames h _ (by simp), fun h => P.runtimeNames h _ (by simp),
      fun h => P.runtimeNames h _ (by simp)⟩
  simp [hr, P.reads_of_writes hr, hsp, P.reads_of_writes hsp, hz, hlk, P.reads_of_writes hresult,
    hnames]

omit hc in
theorem lockstep_printBytes (bytes : List UInt8) :
    Abreast P c [] (printBytes bytes) (printBytes bytes) (Code.Mirrors P) := by
  refine Lockstep.zero.bind fun z z' hz => ?_
  refine Lockstep.withRegister (by simp) (fun _ => .pure _) (fun _ => .pure _) fun r s hr => ?_
  refine .pure (.plain ?_)
  have hr' := P.reads_of_writes hr
  induction bytes with
  | nil => exact .nil
  | cons byte bytes ih =>
    rw [List.flatMap_cons, List.flatMap_cons]
    exact .cons (by simp [hr, hr', hz]) (.cons (by simp [hr']) ih)

theorem lockstep_write (path : Path) {e : Expr} (hn : P.named → OneLiners e.names) :
    Abreast P c [] (write path e) (write path e) (Evaluated P e) := by
  rw [write_eq]
  refine Lockstep.context ?_
  have hsep : b.emit.floatSeparator = a.emit.floatSeparator :=
    (congrArg Emission.floatSeparator P.emit).symm
  have hnewline : b.emit.newline = a.emit.newline := (congrArg Emission.newline P.emit).symm
  simp only [printValue, endLine, hsep, hnewline]
  refine (lockstep_value hc path hn).bind fun x y hxy => ?_
  obtain ⟨code, p⟩ := x
  obtain ⟨code', p'⟩ := y
  obtain ⟨hcode, rfl⟩ := hxy
  refine Abreast.bind (R := Code.Mirrors P) ?_
    fun printed printed' hprinted => ?_
  · refine .ite (fun _ => lockstep_printWord p 0) fun _ => .ite (fun _ => ?_) fun _ => .throw
    exact (lockstep_printWord p 0).bind fun _ _ hm => (lockstep_printBytes _).bind fun _ _ hs =>
      (lockstep_printWord p 1).bind fun _ _ hx => .pure ((hm.append hs).append hx)
  · refine Abreast.bind (R := Code.Mirrors P)
      (.ite (fun _ => lockstep_printBytes _) fun _ => .pure .nil) fun newline newline' hline => ?_
    exact .pure ⟨(hcode.1.append hprinted).append hline, hcode.2⟩

theorem lockstep_readInto (path : Path) {target : Expr} (hn : P.named → OneLiners target.names) :
    Abreast P c [] (readInto path target) (readInto path target) (Evaluated P target) := by
  refine .ite (fun _ => .throw) fun _ => (lockstep_operands hc path hn).bind fun before before' hbefore => ?_
  refine Lockstep.context ?_
  simp only [← P.runtime]
  refine Lockstep.settled .frameSize fun size => Lockstep.stackPointer.bind fun sp sp' hsp =>
    Lockstep.zero.bind fun z z' hz => Lockstep.link.bind fun lk lk' hlk => ?_
  refine Lockstep.bind (R := Code.Mirrors P) (Lockstep.withRegister (by simp) (fun _ => .pure _)
    (fun _ => .pure _) fun r s hr => .pure (.plain ?_)) fun calls calls' hcalls => ?_
  · have hnames : P.Spells a.runtime.bufferLabel ∧ P.Spells a.runtime.readString
        ∧ P.Spells a.runtime.stringToInt :=
      ⟨fun h => P.runtimeNames h _ (by simp), fun h => P.runtimeNames h _ (by simp),
        fun h => P.runtimeNames h _ (by simp)⟩
    simp [hr, P.reads_of_writes hr, hsp, P.reads_of_writes hsp, hz, hlk, hnames]
  · refine (lockstep_locate path target).bind fun x y hxy =>
      (lockstep_releaseLocation hxy.2).bind fun _ _ _ =>
        Lockstep.resultRegister.bind fun result result' hresult => ?_
    refine .pure ⟨((hbefore.1.append hcalls).append hxy.1).append (.plain ?_), hbefore.2⟩
    rw [hxy.2.off]
    simp [P.reads_of_writes hresult, P.reads_of_writes hxy.2.base]

theorem lockstep_branchIfZero (path : Path) {cond : Expr} (hn : P.named → OneLiners cond.names)
    {label : String} (hlabel : P.Spells label) :
    Abreast P c [] (branchIfZero path cond label) (branchIfZero path cond label) (Evaluated P cond) := by
  refine (lockstep_value hc path hn).bind fun x y hxy => ?_
  obtain ⟨code, p⟩ := x
  obtain ⟨code', p'⟩ := y
  obtain ⟨hcode, rfl⟩ := hxy
  refine Lockstep.bind (R := Code.Mirrors P) (Lockstep.withRegister (by simp)
    (fun r => (Still.load r p 0).bind fun _ => .pure _)
    (fun r => (Still.load r p 0).bind fun _ => .pure _) fun r s hr => ?_)
    fun test test' htest => .pure ⟨hcode.1.append htest, hcode.2⟩
  exact (lockstep_load hr p 0).bind fun load load' hload =>
    .pure (hload.append (.plain (by simp [P.reads_of_writes hr, hlabel])))

theorem lockstep_declare (path : Path) {d : VarDecl} {init : Expr}
    (hn : P.named → OneLiners (Stmt.declare d init).names) :
    Abreast P c [] (declare path d init) (declare path d init) (Code.Mirrors P) := by
  have hd := fun h => (oneLiners_cons.1 (oneLiners_append.1 (hn h)).1).1
  have hinit := fun h => (oneLiners_append.1 (hn h)).2
  refine .ite (fun _ => .pure .nil) fun _ => Lockstep.comment fun note note' hnote => ?_
  refine (lockstep_value hc (0 :: path) hinit).bind fun x y hxy => ?_
  obtain ⟨code, p⟩ := x
  obtain ⟨code', p'⟩ := y
  obtain ⟨hcode, rfl⟩ := hxy
  refine Lockstep.context ?_
  cases hlook : c.scope.lookup d.name with
  | none =>
    exact .throw
  | some entry =>
    refine Lockstep.settled (.lift _) fun off => (Lockstep.frame off).bind fun l m hl =>
      Lockstep.settled (settled_words P _) fun n => ?_
    refine (lockstep_store (by simp) hl.1 p n).bind fun move move' hmove =>
      .pure (((hnote fun h => ?_).append hcode.1).append hmove)
    rw [oneLine_append, oneLine_append]
    exact ⟨⟨hd h, by decide⟩, hcode.2 h⟩

theorem lockstep_assign (path : Path) {target source : Expr}
    (hn : P.named → OneLiners (Stmt.assign target source).names) :
    Abreast P c [] (assign path target source) (assign path target source) (Code.Mirrors P) := by
  have htarget := fun h => (oneLiners_append.1 (hn h)).1
  have hsource := fun h => (oneLiners_append.1 (hn h)).2
  refine Lockstep.comment fun note note' hnote => ?_
  refine (lockstep_operands hc (0 :: path) htarget).bind fun before before' hbefore => ?_
  refine (lockstep_value hc (1 :: path) hsource).bind fun x y hxy => ?_
  obtain ⟨code, p⟩ := x
  obtain ⟨code', p'⟩ := y
  obtain ⟨hcode, rfl⟩ := hxy
  refine (lockstep_locate (0 :: path) target).bind fun x y hxy => ?_
  have hk : (located x y).length < 8 := Nat.lt_of_le_of_lt (Location.length_pairs _ _) (by decide)
  refine Lockstep.settled (settled_words P _) fun n => ?_
  refine (lockstep_store hk hxy.2 p n).bind fun move move' hmove => ?_
  refine (lockstep_releaseLocation hxy.2).bind fun _ _ _ => .pure ?_
  refine ((((hnote fun h => ?_).append hbefore.1).append hcode.1).append hxy.1).append hmove
  rw [oneLine_append, oneLine_append]
  exact ⟨⟨hbefore.2 h, by decide⟩, hcode.2 h⟩

theorem lockstep_ret (path : Path) {result : Expr} (hn : P.named → OneLiners result.names) :
    Abreast P c [] (ret path result) (ret path result) (Code.Mirrors P) := by
  have hjump : (plain [.j c.exit]).Mirrors P (plain [.j c.exit]) := .plain (by simp [hc.exit])
  refine Lockstep.context <| .ite (fun _ => .pure hjump) fun _ =>
    Lockstep.comment fun note note' hnote => .ite (fun _ => .throw) fun _ => ?_
  refine (lockstep_value hc (0 :: path) hn).bind fun x y hxy => ?_
  obtain ⟨code, p⟩ := x
  obtain ⟨code', p'⟩ := y
  obtain ⟨hcode, rfl⟩ := hxy
  refine Lockstep.settled (.ownSlot _) fun off => (Lockstep.frame off).bind fun l m hl =>
    Lockstep.settled (settled_words P _) fun n => ?_
  refine (lockstep_store (by simp) hl.1 p n).bind fun move move' hmove =>
    .pure ((((hnote fun h => ?_).append hcode.1).append hmove).append hjump)
  rw [oneLine_append]
  exact ⟨by decide, hcode.2 h⟩

omit hc in
theorem lockstep_enterBlock : Abreast P c held enterBlock enterBlock fun _ _ => True :=
  fun _ _ hp hl => .answer trivial hp hl

omit hc in
theorem lockstep_checkRegisters (st : Stmt) :
    Abreast P c held (checkRegisters st) (checkRegisters st) fun _ _ => True := by
  intro s t hp hl
  have hlive := P.live hp
  unfold checkRegisters
  rw [eval_bind_ok (eval_get _ s), eval_bind_ok (eval_get _ t), hlive]
  have hcheck : Abreast P c held
      (if (t.pool.live != 0) = true then throw (.liveRegisters t.pool.live st.text) else pure ())
      (if (t.pool.live != 0) = true then throw (.liveRegisters t.pool.live st.text) else pure ())
      fun _ _ => True := Lockstep.ite (fun _ => .throw) fun _ => .pure trivial
  exact hcheck s t hp hl

omit hc in
theorem mirrors_choice {condition condition' yes yes' no no' : Code} (hc : condition.Mirrors P condition')
    (hyes : yes.Mirrors P yes') (hno : no.Mirrors P no') {elseLabel endLabel : String}
    (helse : P.Spells elseLabel) (hend : P.Spells endLabel) :
    (choice condition yes no elseLabel endLabel).Mirrors P
      (choice condition' yes' no' elseLabel endLabel) :=
  ((((hc.append hyes).append (.plain (by simp [hend]))).append (.mark helse)).append hno).append
    (.mark hend)

omit hc in
mutual

theorem lockstep_stmt (hc : c.Worded P) (path : Path) : ∀ st : Stmt, (P.named → OneLiners st.names) →
    Abreast P c [] (stmt path st) (stmt path st) (Code.Mirrors P)
  | .declare d init, hn => by
    rw [stmt]
    exact lockstep_declare hc path hn
  | .assign target source, hn => by
    rw [stmt]
    exact lockstep_assign hc path hn
  | .when cond body, hn => by
    have hcond := fun h => (oneLiners_append.1 (hn h)).1
    have hbody := fun h => (oneLiners_append.1 (hn h)).2
    rw [stmt]
    refine (lockstep_label (by decide)).bind fun elseLabel _ h => (lockstep_label (by decide)).bind
      fun endLabel _ h' => Lockstep.comment fun note note' hnote => ?_
    obtain ⟨rfl, helse⟩ := h
    obtain ⟨rfl, hend⟩ := h'
    refine (lockstep_branchIfZero hc (0 :: path) hcond helse).bind fun test test' htest => ?_
    refine lockstep_enterBlock.bind fun _ _ _ => ?_
    refine (lockstep_stmts hc (1 :: path) 0 body hbody).bind fun code code' hcode =>
      .pure (mirrors_choice ((hnote fun h => ?_).append htest.1) hcode .nil helse hend)
    rw [oneLine_append]
    exact ⟨by decide, htest.2 h⟩
  | .branch cond yes no, hn => by
    have hcond := fun h => (oneLiners_append.1 (oneLiners_append.1 (hn h)).1).1
    have hyes := fun h => (oneLiners_append.1 (oneLiners_append.1 (hn h)).1).2
    have hno := fun h => (oneLiners_append.1 (hn h)).2
    rw [stmt]
    refine (lockstep_label (by decide)).bind fun elseLabel _ h => (lockstep_label (by decide)).bind
      fun endLabel _ h' => Lockstep.comment fun note note' hnote => ?_
    obtain ⟨rfl, helse⟩ := h
    obtain ⟨rfl, hend⟩ := h'
    refine (lockstep_branchIfZero hc (0 :: path) hcond helse).bind fun test test' htest => ?_
    refine lockstep_enterBlock.bind fun _ _ _ => ?_
    refine (lockstep_stmts hc (1 :: path) 0 yes hyes).bind fun code code' hcode => ?_
    refine lockstep_enterBlock.bind fun _ _ _ => ?_
    refine (lockstep_stmts hc (2 :: path) 0 no hno).bind fun more more' hmore =>
      .pure (mirrors_choice ((hnote fun h => ?_).append htest.1) hcode hmore helse hend)
    rw [oneLine_append]
    exact ⟨by decide, htest.2 h⟩
  | .loop cond body, hn => by
    have hcond := fun h => (oneLiners_append.1 (hn h)).1
    have hbody := fun h => (oneLiners_append.1 (hn h)).2
    rw [stmt]
    refine (lockstep_label (by decide)).bind fun top _ h => (lockstep_label (by decide)).bind
      fun stop _ h' => Lockstep.comment fun note note' hnote => ?_
    obtain ⟨rfl, htop⟩ := h
    obtain ⟨rfl, hstop⟩ := h'
    refine (lockstep_branchIfZero hc (0 :: path) hcond hstop).bind fun test test' htest => ?_
    refine lockstep_enterBlock.bind fun _ _ _ => ?_
    refine (lockstep_stmts hc (1 :: path) 0 body hbody).bind fun code code' hcode => .pure ?_
    refine (((((hnote fun h => ?_).append (.mark htop)).append htest.1).append hcode).append
      (.plain (by simp [htop]))).append (.mark hstop)
    rw [oneLine_append]
    exact ⟨by decide, htest.2 h⟩
  | .write e, hn => by
    rw [stmt]
    refine Lockstep.comment fun note note' hnote => ?_
    refine (lockstep_write hc (0 :: path) hn).bind fun code code' hcode =>
      .pure ((hnote fun h => ?_).append hcode.1)
    rw [oneLine_append, oneLine_append]
    exact ⟨⟨by decide, hcode.2 h⟩, by decide⟩
  | .read target, hn => by
    rw [stmt]
    refine Lockstep.comment fun note note' hnote => ?_
    refine (lockstep_readInto hc (0 :: path) hn).bind fun code code' hcode =>
      .pure ((hnote fun h => ?_).append hcode.1)
    rw [oneLine_append, oneLine_append]
    exact ⟨⟨by decide, hcode.2 h⟩, by decide⟩
  | .ret result, hn => by
    rw [stmt]
    exact lockstep_ret hc path hn
  | .call e, hn => by
    rw [stmt]
    exact (lockstep_evaluate hc .value (0 :: path) e hn).mono fun x y h => h.1

theorem lockstep_stmts (hc : c.Worded P) (path : Path) (i : ℕ) : ∀ sts : List Stmt,
    (P.named → OneLiners (Stmt.namesOf sts)) →
    Abreast P c [] (stmts path i sts) (stmts path i sts) (Code.Mirrors P)
  | [], _ => by
    rw [stmts]
    exact .pure .nil
  | st :: sts, hn => by
    have hst := fun h => (oneLiners_append.1 (hn h)).1
    have hsts := fun h => (oneLiners_append.1 (hn h)).2
    rw [stmts]
    refine (lockstep_stmt hc (i :: path) st hst).bind fun code code' hcode => ?_
    refine (lockstep_checkRegisters st).bind fun _ _ _ => ?_
    exact (lockstep_stmts hc path (i + 1) sts hsts).bind fun more more' hmore => .pure (hcode.append hmore)

end

/-! ### Programs -/

omit hc in
theorem lockstep_reportFunction (scope : Scope) (tag : String) :
    Abreast P c held (reportFunction scope tag) (reportFunction scope tag) fun _ _ => True :=
  Lockstep.settled .frameSize fun _ _ _ hp hl => .answer trivial hp hl

theorem lockstep_function {tag : String} (htag : P.Spells tag) (f : MoonBackend.Function)
    (hsig : P.named → OneLiners f.toSignature.names)
    (hbody : P.named → OneLiners (Stmt.namesOf f.body)) :
    Abreast P c [] (function tag f) (function tag f) (Code.Mirrors P) := by
  have hentry : b.emit.entryFunction = a.emit.entryFunction :=
    (congrArg Emission.entryFunction P.emit).symm
  rw [function_eq]
  refine Lockstep.context <| Lockstep.stackPointer.bind fun sp sp' hsp =>
    Lockstep.link.bind fun lk lk' hlk => Lockstep.comment fun note note' hnote => ?_
  have hsp' := P.reads_of_writes hsp
  simp only [hentry]
  generalize f.isFree a.emit.entryFunction = isEntry
  refine Abreast.bind (R := Code.Mirrors P) ?_ fun start start' hstart =>
    lockstep_enterBlock.bind fun _ _ _ => ?_
  · refine .ite (fun _ => Lockstep.settled .frameSize fun size => ?_) fun _ => ?_
    · refine fun s t hp hl => .answer (.note _ _ fun _ => ?_) hp hl
      rw [oneLine_append]
      exact ⟨by decide, oneLine_decimal _⟩
    · refine Lockstep.settled (.ownSlot _) fun off => .pure (.cons (.labeled htag ?_) .nil)
      simp [hsp', P.reads_of_writes hlk]
  · refine (lockstep_stmts hc [] 0 f.body hbody).bind fun body body' hcode => ?_
    have hresult : Abreast P c [] (functionResult f.returns sp) (functionResult f.returns sp')
        (Code.Mirrors P) := by
      refine .ite (fun _ => Lockstep.settled (.ownSlot _) fun off => ?_) fun _ => .pure .nil
      exact Lockstep.resultRegister.bind fun r s hr =>
        .pure (.plain (by simp [hr, P.reads_of_writes hr, hsp']))
    refine Abreast.bind (R := Code.Mirrors P) ?_ fun finish finish' hfinish =>
      (lockstep_reportFunction _ tag).bind fun _ _ _ => ?_
    · refine .ite (fun _ => .pure .nil) fun _ => hresult.bind fun result result' h => ?_
      refine Lockstep.settled (.ownSlot _) fun off => .pure (h.append (.plain ?_))
      simp [hlk, P.reads_of_writes hlk, hsp']
    · refine .pure (((((hnote fun h => ?_).append hstart).append hcode).append (.mark hc.exit)).append hfinish)
      exact Signature.oneLine_text (hsig h)

end

/-- The names in the functions of a program are written on one line, and those of functions and
classes are words, as far as this is asked for. -/
structure FunctionsNamed (P : Pairing a b) (p : Program) : Prop where
  named : ∀ f ∈ p.functions, P.named →
    OneLiners f.toSignature.names ∧ OneLiners (Stmt.namesOf f.body)
  worded : P.worded → ∀ f ∈ p.functions, IsWord f.name ∧ IsWord f.className

abbrev Emitted (P : Pairing a b) : Except Fault Code × Counts → Except Fault Code × Counts → Prop :=
  EndsAlike P (fun _ _ => []) (Code.Mirrors P)

variable {layout : Layout} {k k' : Counts}

theorem FunctionsNamed.worded_contextAt (hn : FunctionsNamed P layout.table.program) {i : ℕ}
    {f : MoonBackend.Function} (hf : layout.table.program.functions[i]? = some f) (scope : Scope)
    (n : ℕ) : (contextAt a layout (tags layout.table.program) i f scope
      (exitAt (tags layout.table.program) i n)).Worded P where
  exit h := (IsLabel.exit n hf).isIdentifier (hn.worded h)
  tag _ _ hk h := (IsLabel.tag hk).isIdentifier (hn.worded h)

theorem functionAt_emitted (hn : FunctionsNamed P layout.table.program) (i : ℕ)
    (hp : P.pools [] k.pool k'.pool) (hl : k.labels = k'.labels) :
    Emitted P ((functionAt a layout (tags layout.table.program) i).run k)
      ((functionAt b layout (tags layout.table.program) i).run k') := by
  cases hs : layout.table.functions[i]? with
  | none =>
    unfold functionAt
    rw [hs]
    exact .answer .nil hp hl
  | some scope =>
    cases hf : layout.table.program.functions[i]? with
    | none =>
      unfold functionAt
      rw [hs, hf]
      exact .answer .nil hp hl
    | some f =>
      rw [run_functionAt hs hf, run_functionAt hs hf]
      have hexit : exitLabel (tags layout.table.program) i k'
          = exitLabel (tags layout.table.program) i k := by
        unfold exitLabel
        rw [hl]
      rw [hexit]
      have hnames := hn.named f (List.mem_of_getElem? hf)
      exact lockstep_function (hn.worded_contextAt hf scope (k.labels + 1))
        (fun h => (IsLabel.tag hf).isIdentifier (hn.worded h)) f (fun h => (hnames h).1)
        (fun h => (hnames h).2) (afterLabel k) (afterLabel k') hp (congrArg (· + 1) hl)

theorem functionsAt_emitted (hn : FunctionsNamed P layout.table.program) {before : Code}
    (hbefore : before.Mirrors P before) (is : List ℕ) (hp : P.pools [] k.pool k'.pool)
    (hl : k.labels = k'.labels) :
    Emitted P ((functionsAt a layout (tags layout.table.program) before is).run k)
      ((functionsAt b layout (tags layout.table.program) before is).run k') := by
  induction is generalizing k k' with
  | nil => exact .answer .nil hp hl
  | cons i is ih =>
    have hfirst := functionAt_emitted hn i hp hl
    unfold functionsAt
    rw [run_bind, run_bind]
    generalize (functionAt a layout _ i).run k = x, (functionAt b layout _ i).run k' = y at hfirst
    cases hfirst with
    | fault f s t => exact .fault f s t
    | @answer code code' s t hcode hp' hl' =>
      have hrest := ih hp' hl'
      simp only
      rw [run_bind, run_bind]
      generalize (functionsAt a layout _ before is).run s = x,
        (functionsAt b layout _ before is).run t = y at hrest
      cases hrest with
      | fault f s t => exact .fault f s t
      | answer hmore hp'' hl'' => exact .answer ((hbefore.append hcode).append hmore) hp'' hl''

theorem mirrors_wrapped {entries entries' others others' : Code} (he : entries.Mirrors P entries')
    (ho : others.Mirrors P others') :
    (wrapped a entries others).Mirrors P (wrapped b entries' others') := by
  have hz := P.zero
  have hsp := P.stackPointer
  unfold wrapped
  rw [← P.runtime]
  refine (((((((Code.Mirrors.note _ _ fun _ => by decide).append (.plain ?_)).append he).append
    (.plain ?_)).append ho).append (.cons .blank .nil)).append (.note _ _ fun _ => by decide)).append
      (.cons (.labeled (fun h => P.runtimeNames h _ (by simp)) ?_) .nil)
  · have htop : P.Spells a.runtime.topOfMemory := fun h => P.runtimeNames h _ (by simp)
    exact .cons trivial (.cons (by simp [hsp, P.reads_of_writes hsp, hz, htop]) .nil)
  · simp
  · exact rfl

theorem run_mirrors (hn : FunctionsNamed P layout.table.program) :
    (∃ f, (run a layout).1 = .error f ∧ (run b layout).1 = .error f) ∨
    ∃ x y, (run a layout).1 = .ok x ∧ (run b layout).1 = .ok y ∧ x.Mirrors P y := by
  have hentry : b.emit.entryFunction = a.emit.entryFunction :=
    (congrArg Emission.entryFunction P.emit).symm
  have hat : ∀ i, isEntryAt b layout i = isEntryAt a layout i := fun i => by
    unfold isEntryAt
    rw [hentry]
  have hprogram : Emitted P ((program a layout).run (startCounts a))
      ((program b layout).run (startCounts b)) := by
    rw [run_program, run_program]
    simp only [entryPositions, otherPositions, hat]
    have hstart : (startCounts a).labels = (startCounts b).labels := rfl
    have hentries := functionsAt_emitted hn (Code.Mirrors.nil : Code.Mirrors P [] [])
      ((List.range layout.table.functions.length).filter fun i => isEntryAt a layout i) P.start hstart
    generalize (functionsAt a layout _ [] _).run (startCounts a) = x,
      (functionsAt b layout _ [] _).run (startCounts b) = y at hentries ⊢
    cases hentries with
    | fault f s t => exact .fault f s t
    | @answer entries entries' s t he hp hl =>
      have hblank : Code.Mirrors P [Line.blank] [Line.blank] := .cons .blank .nil
      have hothers := functionsAt_emitted hn hblank
        ((List.range layout.table.functions.length).filter fun i => !isEntryAt a layout i) hp hl
      simp only
      generalize (functionsAt a layout _ [.blank] _).run s = x,
        (functionsAt b layout _ [.blank] _).run t = y at hothers ⊢
      cases hothers with
      | fault f s t => exact .fault f s t
      | answer ho hp' hl' => exact .answer (mirrors_wrapped he ho) hp' hl'
  have hrun : ∀ (config : Config), (run config layout).1 = ((program config layout).run (startCounts config)).1 := by
    intro config
    unfold run
    rw [show ({ pool := .ofNumbers config.registers.general } : Counts) = startCounts config from rfl]
    generalize (program config layout).run (startCounts config) = r
    obtain ⟨_ | code, s⟩ := r <;> rfl
  rw [hrun, hrun]
  generalize (program a layout).run (startCounts a) = x,
    (program b layout).run (startCounts b) = y at hprogram
  cases hprogram with
  | fault f s t => exact .inl ⟨f, rfl, rfl⟩
  | answer h _ _ => exact .inr ⟨_, _, rfl, rfl, h⟩

/-- A program compiles alike under two configurations that correspond to each other: with the same
error, or to the same layout and to lines that mirror each other. -/
theorem compile_mirrors (P : Pairing a b) {p : Program} (hn : P.named → OneLiners p.names)
    (hw : P.worded → ∀ f ∈ p.functions, IsWord f.name ∧ IsWord f.className) :
    (∃ e, (compile a p).1 = .error e ∧ (compile b p).1 = .error e) ∨
    ∃ x y, (compile a p).1 = .ok x ∧ (compile b p).1 = .ok y ∧ x.code.Mirrors P y.code
      ∧ x.layout = y.layout := by
  unfold compile
  cases hb : Table.build p with
  | error cause => exact .inl ⟨_, rfl, rfl⟩
  | ok t =>
    have hlayout : Layout.ofTable t b = Layout.ofTable t a := by
      unfold Layout.ofTable
      rw [P.sizes, show b.emit.entryFunction = a.emit.entryFunction from
        (congrArg Emission.entryFunction P.emit).symm]
    simp only [compileTable, hlayout]
    rcases hr : (Layout.ofTable t a).resolve with ⟨f | _, layout⟩
    · exact .inl ⟨_, rfl, rfl⟩
    · simp only
      obtain ⟨hlater, -⟩ := Layout.of_resolve (Table.fresh_of_build hb) hr
      have hnamed : FunctionsNamed P layout.table.program := by
        rw [hlater.program]
        refine ⟨fun f hf h => ?_, fun h f hf => ?_⟩
        · obtain ⟨f₀, hf₀, hsig, hbody⟩ := Table.names_of_build hb hf
          have hn₀ := (oneLiners_append.1 (hn h)).2
          have hall : OneLiners (f₀.toSignature.names ++ Stmt.namesOf f₀.body) :=
            fun s hs => hn₀ s (List.mem_flatMap.2 ⟨f₀, hf₀, hs⟩)
          rw [hsig, hbody]
          exact oneLiners_append.1 hall
        · obtain ⟨f₀, hf₀, hsig, -⟩ := Table.names_of_build hb hf
          rw [hsig]
          exact hw h f₀ hf₀
      rcases run_mirrors (P := P) hnamed with ⟨f, hf, hg⟩ | ⟨x, y, hx, hy, hxy⟩
      · rcases he : run a layout with ⟨_ | _, log⟩ <;> rcases he' : run b layout with ⟨_ | _, log'⟩ <;>
          simp_all
      · rcases he : run a layout with ⟨_ | _, log⟩ <;> rcases he' : run b layout with ⟨_ | _, log'⟩ <;>
          simp_all

end MoonBackend.Emit
