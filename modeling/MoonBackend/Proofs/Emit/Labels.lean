import MoonBackend.Proofs.Assembly.Acceptable
import MoonBackend.Proofs.Emit.Steps
import MoonBackend.Proofs.Text.Numeral

/-!
# The labels of a function body

Every branch, loop and float label of a body is one of a few stems followed by the number that the
count of labels stood at. No stem has an underscore or ends in a digit, so the number can be read off
a label, and the labels of a piece of code are different because their numbers are.
-/

namespace MoonBackend.Emit

open Code Text

variable {α β : Type}

/-! ### Numbered labels -/

def bodyStems : List String :=
  ["else", "endif", "top", "endwhile", "falign", "fnz", "fdone", "fabs", "fdig", "fdigend", "fwiden",
    "fwidened", "ftrim", "ftrimmed"]

theorem stem_shape : ∀ stem ∈ bodyStems,
    '_' ∉ stem.toList ∧ ∃ cs c, stem.toList = cs ++ [c] ∧ c.isDigit = false := by
  have hshape : ∀ stem ∈ bodyStems, '_' ∉ stem.toList
      ∧ (stem.toList.getLast?.any fun c => !c.isDigit) = true := by decide
  intro stem hs
  obtain ⟨h1, h2⟩ := hshape stem hs
  obtain ⟨c, hc, hd⟩ := (Option.any_eq_true _ _).1 h2
  obtain ⟨cs, hcs⟩ := List.getLast?_eq_some_iff.1 hc
  exact ⟨h1, cs, c, hcs, by simpa using hd⟩

def numbered (start : String) (n : Nat) : String := start ++ decimal (n : Int)

theorem toList_numbered (start : String) (n : Nat) :
    (numbered start n).toList = start.toList ++ Nat.toDigits 10 n := by
  rw [numbered, String.toList_append]
  congr 1
  exact String.toList_ofList

theorem numbered_inj {s t : String} (hs : s ∈ bodyStems) (ht : t ∈ bodyStems) {m n : Nat}
    (h : numbered s m = numbered t n) : m = n := by
  obtain ⟨-, cs, c, hcs, hc⟩ := stem_shape s hs
  obtain ⟨-, ds, d, hds, hd⟩ := stem_shape t ht
  have hl := congrArg String.toList h
  rw [toList_numbered, toList_numbered, hcs, hds, List.append_assoc, List.append_assoc] at hl
  exact append_toDigits_inj hc hd hl

/-- Different labels of a body, with numbers above `m` and up to `n`. -/
structure Fresh (m n : Nat) (labels : List String) : Prop where
  le : m ≤ n
  nodup : labels.Nodup
  label : ∀ l ∈ labels, ∃ stem ∈ bodyStems, ∃ k, l = numbered stem k ∧ m < k ∧ k ≤ n

namespace Fresh

theorem nil (n : Nat) : Fresh n n [] := ⟨Nat.le_refl n, List.nodup_nil, fun _ h => by cases h⟩

theorem one {stem : String} (h : stem ∈ bodyStems) (n : Nat) :
    Fresh n (n + 1) [numbered stem (n + 1)] := by
  refine ⟨Nat.le_succ n, by simp, fun l hl => ?_⟩
  exact ⟨stem, h, n + 1, List.mem_singleton.1 hl, Nat.lt_succ_self n, Nat.le_refl _⟩

theorem append {m n k : Nat} {l l' : List String} (h : Fresh m n l) (h' : Fresh n k l') :
    Fresh m k (l ++ l') := by
  refine ⟨h.le.trans h'.le, ?_, ?_⟩
  · rw [List.nodup_append]
    refine ⟨h.nodup, h'.nodup, ?_⟩
    rintro x hx _ hx' rfl
    obtain ⟨s, hs, i, rfl, -, hi⟩ := h.label x hx
    obtain ⟨t, ht, j, he, hj, -⟩ := h'.label _ hx'
    have hij := numbered_inj hs ht he
    omega
  · intro x hx
    rcases List.mem_append.1 hx with hx | hx
    · obtain ⟨s, hs, i, he, hlo, hhi⟩ := h.label x hx
      exact ⟨s, hs, i, he, hlo, hhi.trans h'.le⟩
    · obtain ⟨s, hs, i, he, hlo, hhi⟩ := h'.label x hx
      exact ⟨s, hs, i, he, Nat.lt_of_le_of_lt h.le hlo, hhi⟩

theorem of_count {m n : Nat} {l l' : List String} (h : Fresh m n l)
    (hc : ∀ x, l'.count x = l.count x) : Fresh m n l' := by
  have hp : l'.Perm l := List.perm_iff_count.2 hc
  exact ⟨h.le, hp.symm.nodup h.nodup, fun x hx => h.label x (hp.mem_iff.1 hx)⟩

end Fresh

/-! ### Steps and their labels -/

/-- The labels of the answer are numbered in the range by which the step moves the count of labels.
`f` gives the labels of an answer. -/
def Numbers (f : α → List String) (c : Context) (x : Emit α) : Prop :=
  ∀ s, Triple (fun _ => True) c s x fun a s' => Fresh s.labels s'.labels (f a)

def unlabeled : α → List String := fun _ => []

/-- The labels of code that comes with something else. -/
def firstLabels (a : Code × α) : List String := labelNames a.1

variable {c : Context} {s : Counts} {f : α → List String}

theorem Triple.lift_bind {x : Except Fault α} {y : α → Emit β} {Q : β → Counts → Prop}
    (h : ∀ a, x = .ok a → Triple (fun _ => True) c s (y a) Q) :
    Triple (fun _ => True) c s (Emit.lift x >>= y) Q :=
  Triple.bind (R := fun a s' => s' = s ∧ x = .ok a)
    (Triple.lift (fun _ ha => ⟨rfl, ha⟩) fun _ _ => trivial) fun a s' ⟨hs, ha⟩ => by
      subst hs
      exact h a ha

namespace Numbers

theorem pure {a : α} (h : f a = []) : Numbers f c (pure a) := fun s => by
  refine Triple.pure ?_
  rw [h]
  exact Fresh.nil _

theorem throw (e : Fault) : Numbers f c (throw e : Emit α) := fun _ => trivial

theorem lift (y : Except Fault α) : Numbers unlabeled c (lift y) := fun _ =>
  Triple.lift (fun _ _ => Fresh.nil _) fun _ _ => trivial

theorem ite {p : Prop} [Decidable p] {x y : Emit α} (hx : Numbers f c x) (hy : Numbers f c y) :
    Numbers f c (if p then x else y) := by
  split
  · exact hx
  · exact hy

theorem withRegisters {n : Nat} {body : List Register → Emit α} (h : ∀ rs, Numbers f c (body rs)) :
    Numbers f c (withRegisters n body) := fun s =>
  Triple.withRegisters_any fun rs pool =>
    (h rs { s with pool := pool }).mono fun _ _ h _ => h

theorem withRegister {body : Register → Emit α} (h : ∀ r, Numbers f c (body r)) :
    Numbers f c (withRegister body) := withRegisters fun _ => h _

theorem freshLabel {stem : String} (h : stem ∈ bodyStems) :
    Numbers (fun l => [l]) c (freshLabel stem) := fun s => Fresh.one h s.labels

end Numbers

/-! ### Moves -/

theorem numbers_slotOffset (node : Backing) (kind : EntryKind) :
    Numbers unlabeled c (slotOffset node kind) := fun s =>
  Triple.look (eval_read c s) <| Triple.lift_bind fun e _ => Numbers.lift e.getOffset s

theorem numbers_ownSlot (kind : EntryKind) : Numbers unlabeled c (ownSlot kind) := fun s =>
  Triple.look (eval_read c s) <| numbers_slotOffset _ kind s

theorem numbers_words (t : Ty) : Numbers unlabeled c (words t) := fun s => by
  refine Triple.ite (fun _ => trivial) fun _ => Triple.ite (fun _ => trivial) fun _ => ?_
  refine Triple.look (eval_read c s) <| Triple.lift_bind fun n _ => ?_
  exact Triple.look (eval_wordSize c s) <|
    Triple.ite (fun _ => Fresh.nil _) fun _ => trivial

theorem numbers_placeOf (path : Path) (e : Expr) : Numbers unlabeled c (placeOf path e) := by
  have htemp : Numbers unlabeled c (do return Place.slot (← temporary path e)) := fun s =>
    (numbers_slotOffset _ _ s).bind fun _ _ h => Triple.pure h
  intro s
  cases e with
  | int v => exact Fresh.nil _
  | var name type =>
    refine Triple.look (eval_resolve name c s) ?_
    split
    · exact Triple.lift_bind fun off _ => Fresh.nil _
    · exact htemp s
  | _ => exact htemp s

theorem numbers_constant (r : Register) (v : Int64) : Numbers labelNames c (constant r v) := fun s =>
  Triple.look (eval_zero c s) <| Numbers.ite (Numbers.pure rfl)
    (Numbers.ite (Numbers.pure rfl) (Numbers.throw _)) s

theorem numbers_load (r : Register) (p : Place) (i : Int64) : Numbers labelNames c (load r p i) := by
  cases p with
  | immediate v => exact Numbers.ite (numbers_constant r v) (Numbers.throw _)
  | slot off =>
    exact fun s => Triple.look (eval_wordSize c s) <| Triple.look (eval_stackPointer c s) <|
      Fresh.nil _

theorem numbers_copy (dst src : Location) (n : Int64) : Numbers labelNames c (copy dst src n) :=
  fun s => Triple.look (eval_wordSize c s) <|
    Numbers.withRegister (fun _ => Numbers.pure (labelNames_plain _)) s

theorem numbers_store (dst : Location) (p : Place) (n : Int64) :
    Numbers labelNames c (store dst p n) := by
  cases p with
  | slot off => exact fun s => Triple.look (eval_frame off c s) <| numbers_copy _ _ _ s
  | immediate v =>
    refine fun s => Triple.ite (fun _ => trivial) fun _ => ?_
    refine Numbers.withRegister (fun r s => ?_) s
    exact (numbers_constant r v s).bind fun code s₁ h => Triple.pure (h.of_count (by simp))

theorem numbers_release (r : Register) : Numbers unlabeled c (release r) := fun s =>
  Triple.look (eval_get c s) <| Triple.lift_bind fun _ _ => Fresh.nil _

theorem numbers_releaseLocation (l : Location) : Numbers unlabeled c (releaseLocation l) :=
  Numbers.ite (numbers_release _) (Numbers.pure rfl)

theorem numbers_acquire : Numbers unlabeled c acquire := fun s =>
  Triple.look (eval_get c s) <| Triple.lift_bind fun _ _ => Fresh.nil _

/-! ### Locations -/

theorem numbers_receiverLocation : Numbers firstLabels c receiverLocation := fun s => by
  refine Triple.look (eval_read c s) <| Triple.ite (fun _ => trivial) fun _ => ?_
  refine Triple.look (eval_read c s) <| Triple.look (eval_read c s) <| Triple.look (eval_read c s) ?_
  refine Triple.lift_bind fun e _ => ?_
  refine (numbers_acquire s).bind fun r s₁ h => ?_
  exact Triple.lift_bind fun off _ => Triple.look (eval_stackPointer c s₁) h

theorem numbers_toMember (l : Location) (className member : String) :
    Numbers unlabeled c (toMember l className member) := fun s =>
  Triple.look (eval_read c s) <| Triple.lift_bind fun _ _ => Fresh.nil _

theorem numbers_accumulateIndex (idx : Register) (later : List (Int64 × Path × Expr)) :
    Numbers labelNames c (accumulateIndex idx later) := by
  induction later with
  | nil => exact Numbers.pure rfl
  | cons entry rest ih =>
    obtain ⟨extent, path, e⟩ := entry
    intro s
    have hadd : Numbers labelNames c (withRegister fun r => do
        let code ← load r (← placeOf path e) 0
        return code ++ plain [.reg3 .add idx idx r]) := Numbers.withRegister fun r s => by
      refine (numbers_placeOf path e s).bind fun p s₁ h₁ => ?_
      refine (numbers_load r p 0 s₁).bind fun code s₂ h₂ => Triple.pure ?_
      exact (h₁.append h₂).of_count (by simp [unlabeled])
    refine (hadd s).bind fun add s₁ h₁ => (ih s₁).bind fun more s₂ h₂ => Triple.pure ?_
    exact (h₁.append h₂).of_count (by simp)

theorem numbers_firstIndex (path : Path) (idx : Register) (indices : List Expr) :
    Numbers labelNames c (firstIndex path idx indices) := by
  cases indices with
  | nil => exact Numbers.pure rfl
  | cons e es =>
    intro s
    refine (numbers_placeOf _ e s).bind fun p s₁ h₁ => ?_
    exact (numbers_load idx p 0 s₁).mono fun code s₂ h₂ =>
      (h₁.append h₂).of_count (by simp [unlabeled])

theorem numbers_indexLocation (path : Path) (base : Location) (dims : List Int64)
    (indices : List Expr) (elemSize : Int64) :
    Numbers firstLabels c (indexLocation path base dims indices elemSize) := by
  intro s
  rw [indexLocation_eq]
  refine (numbers_acquire s).bind fun idx s₁ h₁ => ?_
  refine (numbers_firstIndex path idx indices s₁).bind fun first s₂ h₂ => ?_
  refine (numbers_accumulateIndex idx _ s₂).bind fun rest s₃ h₃ => ?_
  refine (numbers_releaseLocation base s₃).bind fun _ s₄ h₄ => Triple.pure ?_
  exact (((h₁.append h₂).append h₃).append h₄).of_count (by simp [unlabeled, firstLabels])

theorem numbers_locate (path : Path) (e : Expr) : Numbers firstLabels c (locate path e) := by
  induction path, e using locate.induct with
  | case1 path name type =>
    intro s
    rw [locate]
    refine Triple.look (eval_resolve name c s) ?_
    split
    · trivial
    · exact Triple.lift_bind fun off _ => Fresh.nil _
    · refine (numbers_receiverLocation s).bind fun a s₁ h₁ => ?_
      refine Triple.look (eval_read c s₁) <| (numbers_toMember _ _ _ s₁).bind fun l s₂ h₂ => ?_
      exact (h₁.append h₂).of_count (by simp [unlabeled, firstLabels])
  | case2 path left member type ih =>
    intro s
    rw [locate]
    refine (ih s).bind fun a s₁ h₁ => (numbers_toMember _ _ _ s₁).bind fun l s₂ h₂ => ?_
    exact (h₁.append h₂).of_count (by simp [unlabeled, firstLabels])
  | case3 path base indices type ih =>
    intro s
    rw [locate]
    refine Triple.look (eval_read c s) <| Triple.lift_bind fun n _ => ?_
    refine (ih s).bind fun a s₁ h₁ => ?_
    refine (numbers_indexLocation path _ _ _ _ s₁).bind fun b s₂ h₂ => ?_
    exact (h₁.append h₂).of_count (by simp [firstLabels])
  | case4 path e hv hd hi =>
    intro s
    rw [locate]
    · exact (numbers_placeOf path e s).bind fun _ _ h => h
    · exact hv
    · exact hd
    · exact hi

theorem numbers_materialize (path : Path) (e : Expr) :
    Numbers labelNames c (materialize path e) := by
  intro s
  refine (numbers_locate path e s).bind fun a s₁ h₁ => ?_
  refine (numbers_slotOffset _ _ s₁).bind fun off s₂ h₂ => Triple.look (eval_frame off c s₂) ?_
  refine (numbers_words _ s₂).bind fun n s₃ h₃ => ?_
  refine (numbers_copy _ _ _ s₃).bind fun move s₄ h₄ => ?_
  refine (numbers_releaseLocation _ s₄).bind fun _ s₅ h₅ => Triple.pure ?_
  exact ((((h₁.append h₂).append h₃).append h₄).append h₅).of_count
    (by simp [unlabeled, firstLabels])

/-! ### Operators -/

theorem numbers_unary (path : Path) (e : Expr) (op : UnaryOp) (t : Ty) (src : Place) :
    Numbers labelNames c (unary path e op t src) := by
  intro s
  refine (numbers_slotOffset _ _ s).bind fun off s₁ h₁ => ?_
  refine Triple.look (eval_stackPointer c s₁) <| Triple.look (eval_zero c s₁) <|
    Triple.look (eval_wordSize c s₁) ?_
  have hcode : ∀ {x : Emit Code}, Numbers labelNames c x →
      Triple (fun _ => True) c s₁ x fun code s' => Fresh s.labels s'.labels (labelNames code) :=
    fun hx => (hx s₁).mono fun code s₂ h₂ => (h₁.append h₂).of_count (by simp [unlabeled])
  refine Triple.ite (fun _ => hcode (Numbers.withRegister fun r s => ?_)) fun _ =>
    Triple.ite (fun _ => hcode (Numbers.withRegister fun r s => ?_)) fun _ => trivial
  · refine (numbers_load r src 0 s).bind fun mantissa s₁ h₁ => ?_
    refine (numbers_load r src 1 s₁).bind fun exponent s₂ h₂ => Triple.pure ?_
    refine (h₁.append h₂).of_count fun x => ?_
    split <;> simp
  · refine (numbers_load r src 0 s).bind fun value s₁ h₁ => Triple.pure (h₁.of_count fun x => ?_)
    cases op <;> simp

theorem numbers_countDigits (dst src a t zero : Register) :
    Numbers labelNames c (countDigits dst src a t zero) := by
  intro s
  refine (Numbers.freshLabel (by decide) s).bind fun abs s₁ h₁ => ?_
  refine (Numbers.freshLabel (by decide) s₁).bind fun loop s₂ h₂ => ?_
  refine (Numbers.freshLabel (by decide) s₂).bind fun stop s₃ h₃ => Triple.pure ?_
  exact ((h₁.append h₂).append h₃).of_count (by simp [mark])

theorem numbers_widen (m width other t : Register) :
    Numbers labelNames c (widen m width other t) := by
  intro s
  refine (Numbers.freshLabel (by decide) s).bind fun loop s₁ h₁ => ?_
  refine (Numbers.freshLabel (by decide) s₁).bind fun stop s₂ h₂ => Triple.pure ?_
  exact (h₁.append h₂).of_count (by simp [mark])

@[simp] theorem labelNames_swap (x y t zero : Register) : labelNames (swap x y t zero) = [] :=
  labelNames_plain _

/-- The lines of a sum carry the three labels that were made for it before. -/
theorem numbers_floatSum (r : FloatRegisters) (align nonZero done : String) (dst word : Int64)
    (sp zero : Register) (s : Counts) :
    Triple (fun _ => True) c s (floatSum r align nonZero done dst word sp zero) fun code s' =>
      ∃ l, Fresh s.labels s'.labels l
        ∧ ∀ x, (labelNames code).count x = ([align, nonZero, done] ++ l).count x := by
  refine (numbers_countDigits _ _ _ _ _ s).bind fun big s₁ h₁ => ?_
  refine (numbers_countDigits _ _ _ _ _ s₁).bind fun small s₂ h₂ => ?_
  refine (numbers_widen _ _ _ _ s₂).bind fun widenBig s₃ h₃ => ?_
  refine (numbers_widen _ _ _ _ s₃).bind fun widenSmall s₄ h₄ => ?_
  refine (Numbers.freshLabel (by decide) s₄).bind fun trim s₅ h₅ => ?_
  refine (Numbers.freshLabel (by decide) s₅).bind fun trimmed s₆ h₆ => ?_
  refine (numbers_countDigits _ _ _ _ _ s₆).bind fun sum s₇ h₇ => Triple.pure ?_
  refine ⟨_, (((((h₁.append h₂).append h₃).append h₄).append h₅).append h₆).append h₇, fun x => ?_⟩
  simp only [mark, labelNames_append, labelNames_plain, labelNames_swap, labelNames_labeled,
    labelNames_nil, List.count_append, List.count_cons, List.count_nil]
  omega

theorem numbers_floatAddSub (path : Path) (e : Expr) (op : BinaryOp) (l r : Place) :
    Numbers labelNames c (floatAddSub path e op l r) := by
  intro s
  refine (numbers_slotOffset _ _ s).bind fun dst s₁ h₁ => ?_
  refine Triple.look (eval_wordSize c s₁) <| Triple.look (eval_stackPointer c s₁) <|
    Triple.look (eval_zero c s₁) ?_
  refine (Numbers.freshLabel (by decide) s₁).bind fun align s₂ h₂ => ?_
  refine (Numbers.freshLabel (by decide) s₂).bind fun nonZero s₃ h₃ => ?_
  refine (Numbers.freshLabel (by decide) s₃).bind fun done s₄ h₄ => ?_
  refine Triple.look (eval_comment _ c s₄) ?_
  have h₀ := ((h₁.append h₂).append h₃).append h₄
  refine Triple.bind (R := fun body s' => Fresh s.labels s'.labels (labelNames body)) ?_ ?_
  · refine Triple.withRegisters_any fun rs pool => ?_
    refine (numbers_load _ l 0 _).bind fun a s₅ h₅ => (numbers_load _ l 1 s₅).bind fun b s₆ h₆ => ?_
    refine (numbers_load _ r 0 s₆).bind fun x s₇ h₇ => (numbers_load _ r 1 s₇).bind fun y s₈ h₈ => ?_
    refine (numbers_floatSum _ align nonZero done dst _ _ _ s₈).bind fun sum s₉ ⟨t, h₉, ht⟩ => ?_
    refine Triple.pure fun _ => (((((h₀.append h₅).append h₆).append h₇).append h₈).append
      h₉).of_count fun z => ?_
    simp only [labelNames_append, List.count_append, ht]
    split <;> simp [unlabeled, List.count_cons] <;> omega
  · intro body s₅ h
    refine Triple.pure (h.of_count fun z => ?_)
    split <;> simp

theorem numbers_floatLiteral (path : Path) (text : String) :
    Numbers labelNames c (floatLiteral path text) := by
  intro s
  unfold floatLiteral
  split
  · trivial
  · rename_i v hv
    refine (numbers_slotOffset _ _ s).bind fun off s₁ h₁ => ?_
    refine Triple.look (eval_wordSize c s₁) <| Triple.look (eval_stackPointer c s₁) ?_
    refine Triple.mono (Q := fun code s' => Fresh s₁.labels s'.labels (labelNames code))
      (Numbers.withRegister (fun r s => ?_) s₁) fun code s₂ h₂ =>
        (h₁.append h₂).of_count (by simp [unlabeled])
    refine (numbers_constant r _ s).bind fun a s₁ h₁ => ?_
    refine (numbers_constant r _ s₁).bind fun b s₂ h₂ => Triple.pure ?_
    exact (h₁.append h₂).of_count (by simp)

@[simp] theorem labelNames_integerOperation (a b z : Register) (op : BinaryOp) :
    labelNames (integerOperation a b z op) = [] := by
  cases op <;> exact labelNames_plain _

theorem numbers_binary (path : Path) (e : Expr) (op : BinaryOp) (t : Ty) (l r : Place) :
    Numbers labelNames c (binary path e op t l r) := by
  refine Numbers.ite (Numbers.ite (numbers_floatAddSub path e op l r) (Numbers.throw _))
    (Numbers.ite (Numbers.throw _) fun s => ?_)
  refine (numbers_slotOffset _ _ s).bind fun off s₁ h₁ => ?_
  refine Triple.look (eval_stackPointer c s₁) <| Triple.look (eval_zero c s₁) ?_
  refine Triple.mono (Q := fun code s' => Fresh s₁.labels s'.labels (labelNames code))
    (Numbers.withRegisters (fun rs s => ?_) s₁) fun code s₂ h₂ =>
      (h₁.append h₂).of_count (by simp [unlabeled])
  refine (numbers_load _ l 0 s).bind fun a s₁ h₁ => ?_
  refine (numbers_load _ r 0 s₁).bind fun b s₂ h₂ => Triple.pure ?_
  exact (h₁.append h₂).of_count (by simp)

/-! ### Calls -/

theorem numbers_addressOf (l : Location) : Numbers firstLabels c (addressOf l) := by
  refine Numbers.ite (Numbers.pure ?_) fun s => ?_
  · show labelNames (if l.off == 0 then [] else _) = []
    split <;> simp
  · exact (numbers_acquire s).bind fun r s₁ h₁ => Triple.pure (h₁.of_count (by simp [unlabeled, firstLabels]))

theorem labelNames_adjust (r : Register) (off : Int64) : labelNames (adjust r off) = [] := by
  unfold adjust
  split <;> simp

theorem numbers_passReceiver (path : Path) (e recv : Expr) (isNew : Bool) (callee : Signature)
    (r : Register) : Numbers labelNames c (passReceiver path e recv isNew callee r) := by
  intro s
  refine Triple.look (eval_stackPointer c s) <| Triple.look (eval_read c s) ?_
  refine Triple.ite (fun _ => ?_) fun _ => Triple.ite (fun _ => ?_) fun _ => ?_
  · exact (numbers_slotOffset _ _ s).bind fun off s₁ h₁ =>
      Triple.pure (h₁.of_count (by simp [unlabeled]))
  · refine (numbers_slotOffset _ _ s).bind fun off s₁ h₁ => Triple.lift_bind fun shift _ => ?_
    exact Triple.pure (h₁.of_count (by simp [unlabeled, labelNames_adjust]))
  · refine Triple.look (eval_read c s) <| Triple.ite (fun _ => trivial) fun _ => ?_
    refine (numbers_ownSlot _ s).bind fun off s₁ h₁ => Triple.lift_bind fun shift _ => ?_
    exact Triple.pure (h₁.of_count (by simp [unlabeled, labelNames_adjust]))

theorem numbers_passArguments (size : Int64) (args : List (Entry × Place)) :
    Numbers labelNames c (passArguments size args) := by
  induction args with
  | nil => exact Numbers.pure rfl
  | cons pair rest ih =>
    obtain ⟨param, arg⟩ := pair
    intro s
    refine Triple.lift_bind fun off _ => Triple.look (eval_frame _ c s) ?_
    refine (numbers_words _ s).bind fun n s₁ h₁ => ?_
    refine (numbers_store _ arg n s₁).bind fun code s₂ h₂ => ?_
    refine (ih s₂).bind fun more s₃ h₃ => Triple.pure ?_
    exact ((h₁.append h₂).append h₃).of_count (by simp [unlabeled])

theorem numbers_saveReceiver (path : Path) (recv : Expr) :
    Numbers labelNames c (saveReceiver path recv) := by
  refine Numbers.ite (Numbers.pure rfl) fun s => ?_
  refine Triple.look (eval_read c s) <| Triple.lift_bind fun slot _ => ?_
  refine (numbers_locate path recv s).bind fun a s₁ h₁ => ?_
  refine (numbers_addressOf _ s₁).bind fun b s₂ h₂ => Triple.lift_bind fun off _ => ?_
  refine (numbers_release _ s₂).bind fun _ s₃ h₃ => Triple.look (eval_stackPointer c s₃) ?_
  exact Triple.pure (((h₁.append h₂).append h₃).of_count (by simp [unlabeled, firstLabels]))

theorem numbers_placeReceiver (path : Path) (e recv : Expr) (isNew : Bool) (target : Nat)
    (callee : Signature) (scope : Scope) (size : Int64) (sp : Register) :
    Numbers labelNames c (placeReceiver path e recv isNew target callee scope size sp) := by
  refine Numbers.ite (fun s => Triple.lift_bind fun slot _ => ?_) (Numbers.pure rfl)
  refine Numbers.withRegister (fun r s => ?_) s
  refine (numbers_passReceiver _ _ _ _ _ r s).bind fun code s₁ h₁ => Triple.lift_bind fun off _ => ?_
  exact Triple.pure (h₁.of_count (by simp))

theorem numbers_fetchResult (path : Path) (e : Expr) (isNew : Bool) (callee : Signature) :
    Numbers labelNames c (fetchResult path e isNew callee) := by
  refine Numbers.ite (fun s => ?_) (Numbers.pure rfl)
  refine (numbers_slotOffset _ _ s).bind fun off s₁ h₁ => Triple.look (eval_frame off c s₁) ?_
  refine Triple.look (eval_resultRegister c s₁) ?_
  refine (numbers_words _ s₁).bind fun n s₂ h₂ => ?_
  exact (numbers_copy _ _ n s₂).mono fun code s₃ h₃ =>
    ((h₁.append h₂).append h₃).of_count (by simp [unlabeled])

theorem numbers_callSequence (path : Path) (e recv : Expr) (isNew : Bool) (target : Nat)
    (args : List Place) : Numbers labelNames c (callSequence path e recv isNew target args) := by
  intro s
  cases hs : c.layout.table.functions[target]? with
  | none => exact Triple.of_eval_error (eval_callSequence_unresolved (.inl hs) s) trivial
  | some scope =>
    cases hf : c.layout.table.program.functions[target]? with
    | none => exact Triple.of_eval_error (eval_callSequence_unresolved (.inr hf) s) trivial
    | some callee =>
      refine Triple.congr (eval_callSequence hs hf s) ?_
      refine Triple.look (eval_stackPointer c s) <| Triple.look (eval_comment _ c s) ?_
      refine (numbers_saveReceiver _ recv s).bind fun saved s₁ h₁ => ?_
      refine Triple.look_lift (eval_frameSize c s₁) (fun _ _ => trivial) fun size _ => ?_
      refine Triple.ite (fun _ => trivial) fun _ => ?_
      refine (numbers_passArguments size _ s₁).bind fun passed s₂ h₂ => ?_
      refine (numbers_placeReceiver _ _ _ _ _ _ _ _ _ s₂).bind fun receiver s₃ h₃ => ?_
      refine Triple.look (eval_link c s₃) ?_
      refine (numbers_fetchResult _ _ _ _ s₃).bind fun result s₄ h₄ => Triple.pure ?_
      refine (((h₁.append h₂).append h₃).append h₄).of_count fun x => ?_
      split <;> simp

/-! ### Expressions -/

theorem numbers_checkOperand (path : Path) (e : Expr) : Numbers unlabeled c (checkOperand path e) := by
  have hplace : ∀ e, Numbers unlabeled c (do let _ ← placeOf path e) := fun e s =>
    (numbers_placeOf path e s).bind fun _ _ h => h
  cases e with
  | var name type => exact Numbers.pure rfl
  | dot left member type => exact Numbers.pure rfl
  | index base indices type => exact Numbers.pure rfl
  | _ => exact hplace _

mutual

theorem numbers_evaluate (use : Use) (path : Path) :
    (e : Expr) → Numbers labelNames c (evaluate use path e)
  | .missing => Numbers.throw _
  | .int _ => Numbers.pure rfl
  | .float text => numbers_floatLiteral path text
  | .var name type => by
    rw [evaluate]
    refine Numbers.ite (Numbers.pure rfl) fun s => Triple.look (eval_resolve name c s) ?_
    split
    · trivial
    · exact Fresh.nil _
    · exact numbers_materialize path _ s
  | .dot left member type => fun s => by
    rw [evaluate]
    refine (numbers_evaluate .location (0 :: path) left s).bind fun operands s₁ h₁ => ?_
    refine (numbers_checkOperand (0 :: path) left s₁).bind fun _ s₂ h₂ => ?_
    refine Triple.ite (fun _ => (h₁.append h₂).of_count (by simp [unlabeled])) fun _ => ?_
    refine (numbers_materialize path _ s₂).bind fun code s₃ h₃ => Triple.pure ?_
    exact ((h₁.append h₂).append h₃).of_count (by simp [unlabeled])
  | .index base indices type => fun s => by
    rw [evaluate]
    refine (numbers_evaluate .location (0 :: path) base s).bind fun operands s₁ h₁ => ?_
    refine (numbers_checkOperand (0 :: path) base s₁).bind fun _ s₂ h₂ => ?_
    refine (numbers_evaluateAll path 1 indices s₂).bind fun a s₃ h₃ => ?_
    have h := (h₁.append h₂).append h₃
    refine Triple.ite (fun _ => h.of_count (by simp [unlabeled, firstLabels])) fun _ => ?_
    refine (numbers_materialize path _ s₃).bind fun code s₄ h₄ => Triple.pure ?_
    exact (h.append h₄).of_count (by simp [unlabeled, firstLabels])
  | .unary op operand type => fun s => by
    rw [evaluate]
    refine (numbers_evaluate .value (0 :: path) operand s).bind fun code s₁ h₁ => ?_
    refine (numbers_placeOf (0 :: path) operand s₁).bind fun src s₂ h₂ => ?_
    refine (numbers_unary path _ op _ src s₂).bind fun more s₃ h₃ => Triple.pure ?_
    exact ((h₁.append h₂).append h₃).of_count (by simp [unlabeled])
  | .binary op left right type => fun s => by
    rw [evaluate]
    refine (numbers_evaluate .value (0 :: path) left s).bind fun first s₁ h₁ => ?_
    refine (numbers_placeOf (0 :: path) left s₁).bind fun l s₂ h₂ => ?_
    refine (numbers_evaluate .value (1 :: path) right s₂).bind fun second s₃ h₃ => ?_
    refine (numbers_placeOf (1 :: path) right s₃).bind fun r s₄ h₄ => ?_
    refine (numbers_binary path _ op _ l r s₄).bind fun more s₅ h₅ => Triple.pure ?_
    exact ((((h₁.append h₂).append h₃).append h₄).append h₅).of_count (by simp [unlabeled])
  | .call recv name args isNew type none => by
    rw [evaluate]
    exact Numbers.throw _
  | .call recv name args isNew type (some target) => fun s => by
    have hrecv : Numbers labelNames c (receiverOperands path recv) :=
      Numbers.ite (Numbers.pure rfl) fun s => by
        refine (numbers_evaluate .location (0 :: path) recv s).bind fun code s₁ h₁ => ?_
        refine (numbers_checkOperand (0 :: path) recv s₁).bind fun _ s₂ h₂ => Triple.pure ?_
        exact (h₁.append h₂).of_count (by simp [unlabeled])
    rw [evaluate_call]
    refine (hrecv s).bind fun operands s₁ h₁ => ?_
    refine (numbers_evaluateAll path 1 args s₁).bind fun a s₂ h₂ => ?_
    refine (numbers_callSequence path _ recv isNew target a.2 s₂).bind fun code s₃ h₃ =>
      Triple.pure ?_
    exact ((h₁.append h₂).append h₃).of_count (by simp [firstLabels])

theorem numbers_evaluateAll (path : Path) (i : Nat) :
    (es : List Expr) → Numbers firstLabels c (evaluateAll path i es)
  | [] => Numbers.pure rfl
  | e :: es => fun s => by
    rw [evaluateAll]
    refine (numbers_evaluate .value (i :: path) e s).bind fun code s₁ h₁ => ?_
    refine (numbers_placeOf (i :: path) e s₁).bind fun p s₂ h₂ => ?_
    refine (numbers_evaluateAll path (i + 1) es s₂).bind fun a s₃ h₃ => Triple.pure ?_
    exact ((h₁.append h₂).append h₃).of_count (by simp [unlabeled, firstLabels])

end

theorem numbers_value (path : Path) (e : Expr) : Numbers firstLabels c (value path e) := fun s =>
  (numbers_evaluate .value path e s).bind fun code s₁ h₁ =>
    (numbers_placeOf path e s₁).bind fun p s₂ h₂ =>
      Triple.pure ((h₁.append h₂).of_count (by simp [unlabeled, firstLabels]))

theorem numbers_operands (path : Path) (e : Expr) : Numbers labelNames c (operands path e) := fun s =>
  (numbers_evaluate .location path e s).bind fun code s₁ h₁ =>
    (numbers_checkOperand path e s₁).bind fun _ s₂ h₂ =>
      Triple.pure ((h₁.append h₂).of_count (by simp [unlabeled]))

/-! ### Statements -/

@[simp] theorem labelNames_note (p : Prop) [Decidable p] (text : String) :
    labelNames (if p then [.comment text] else []) = [] := by
  split <;> rfl

theorem numbers_branchIfZero (path : Path) (cond : Expr) (label : String) :
    Numbers labelNames c (branchIfZero path cond label) := by
  intro s
  refine (numbers_value path cond s).bind fun a s₁ h₁ => ?_
  refine Triple.bind (R := fun test s' => Fresh s₁.labels s'.labels (labelNames test))
    (Numbers.withRegister (fun r s => ?_) s₁) fun test s₂ h₂ => ?_
  · exact (numbers_load r a.2 0 s).bind fun code s₁ h => Triple.pure (h.of_count (by simp))
  · exact Triple.pure ((h₁.append h₂).of_count (by simp [firstLabels]))

theorem numbers_declare (path : Path) (d : VarDecl) (init : Expr) :
    Numbers labelNames c (declare path d init) := by
  refine Numbers.ite (Numbers.pure rfl) fun s => Triple.look (eval_comment _ c s) ?_
  refine (numbers_value _ init s).bind fun a s₁ h₁ => Triple.look (eval_read c s₁) ?_
  split
  · trivial
  · refine Triple.lift_bind fun off _ => Triple.look (eval_frame off c s₁) ?_
    refine (numbers_words _ s₁).bind fun n s₂ h₂ => ?_
    refine (numbers_store _ _ n s₂).bind fun code s₃ h₃ => Triple.pure ?_
    exact ((h₁.append h₂).append h₃).of_count (by simp [firstLabels, unlabeled])

theorem numbers_assign (path : Path) (target source : Expr) :
    Numbers labelNames c (assign path target source) := by
  refine fun s => Triple.look (eval_comment _ c s) ?_
  refine (numbers_operands _ target s).bind fun before s₁ h₁ => ?_
  refine (numbers_value _ source s₁).bind fun a s₂ h₂ => ?_
  refine (numbers_locate _ target s₂).bind fun b s₃ h₃ => ?_
  refine (numbers_words _ s₃).bind fun n s₄ h₄ => ?_
  refine (numbers_store _ _ n s₄).bind fun move s₅ h₅ => ?_
  refine (numbers_releaseLocation _ s₅).bind fun _ s₆ h₆ => Triple.pure ?_
  exact (((((h₁.append h₂).append h₃).append h₄).append h₅).append h₆).of_count
    (by simp [firstLabels, unlabeled])

theorem numbers_ret (path : Path) (result : Expr) : Numbers labelNames c (ret path result) := by
  refine fun s => Triple.look (eval_read c s) <| Triple.ite (fun _ => Fresh.nil _) fun _ => ?_
  refine Triple.look (eval_comment _ c s) <| Triple.ite (fun _ => trivial) fun _ => ?_
  refine (numbers_value _ result s).bind fun a s₁ h₁ => ?_
  refine (numbers_ownSlot _ s₁).bind fun off s₂ h₂ => Triple.look (eval_frame off c s₂) ?_
  refine (numbers_words _ s₂).bind fun n s₃ h₃ => ?_
  refine (numbers_store _ _ n s₃).bind fun move s₄ h₄ => Triple.pure ?_
  exact (((h₁.append h₂).append h₃).append h₄).of_count (by simp [firstLabels, unlabeled])

theorem numbers_printWord (p : Place) (i : Int64) : Numbers labelNames c (printWord p i) := by
  refine fun s => Triple.look (eval_read c s) ?_
  refine Triple.look_lift (eval_frameSize c s) (fun _ _ => trivial) fun size _ => ?_
  refine Triple.look (eval_stackPointer c s) <| Triple.look (eval_zero c s) <|
    Triple.look (eval_link c s) <| Triple.look (eval_resultRegister c s) ?_
  refine Numbers.withRegister (fun r s => ?_) s
  exact (numbers_load r p i s).bind fun code s₁ h => Triple.pure (h.of_count (by simp))

theorem numbers_printBytes (bytes : List UInt8) : Numbers labelNames c (printBytes bytes) := fun s =>
  Triple.look (eval_zero c s) <| Numbers.withRegister (fun _ => Numbers.pure (labelNames_plain _)) s

theorem numbers_printValue (t : Ty) (p : Place) (shape : Emission) :
    Numbers labelNames c (printValue t p shape) := by
  refine Numbers.ite (numbers_printWord p 0) (Numbers.ite (fun s => ?_) (Numbers.throw _))
  refine (numbers_printWord p 0 s).bind fun mantissa s₁ h₁ => ?_
  refine (numbers_printBytes _ s₁).bind fun separator s₂ h₂ => ?_
  refine (numbers_printWord p 1 s₂).bind fun exponent s₃ h₃ => Triple.pure ?_
  exact ((h₁.append h₂).append h₃).of_count (by simp)

theorem numbers_write (path : Path) (e : Expr) : Numbers labelNames c (write path e) := by
  rw [write_eq]
  refine fun s => Triple.look (eval_read c s) ?_
  refine (numbers_value path e s).bind fun a s₁ h₁ => ?_
  refine (numbers_printValue _ _ _ s₁).bind fun printed s₂ h₂ => ?_
  refine (Numbers.ite (numbers_printBytes _) (Numbers.pure rfl) s₂).bind fun newline s₃ h₃ =>
    Triple.pure ?_
  exact ((h₁.append h₂).append h₃).of_count (by simp [firstLabels])

theorem numbers_readInto (path : Path) (target : Expr) :
    Numbers labelNames c (readInto path target) := by
  refine Numbers.ite (Numbers.throw _) fun s => ?_
  refine (numbers_operands path target s).bind fun before s₁ h₁ => Triple.look (eval_read c s₁) ?_
  refine Triple.look_lift (eval_frameSize c s₁) (fun _ _ => trivial) fun size _ => ?_
  refine Triple.look (eval_stackPointer c s₁) <| Triple.look (eval_zero c s₁) <|
    Triple.look (eval_link c s₁) ?_
  refine Triple.bind (R := fun calls s' => Fresh s₁.labels s'.labels (labelNames calls))
    (Numbers.withRegister (fun _ => Numbers.pure (labelNames_plain _)) s₁) fun calls s₂ h₂ => ?_
  refine (numbers_locate path target s₂).bind fun a s₃ h₃ => ?_
  refine (numbers_releaseLocation _ s₃).bind fun _ s₄ h₄ => ?_
  refine Triple.look (eval_resultRegister c s₄) ?_
  exact (((h₁.append h₂).append h₃).append h₄).of_count (by simp [firstLabels, unlabeled])

theorem numbers_enterBlock : Numbers unlabeled c enterBlock := fun _ => Fresh.nil _

theorem numbers_checkRegisters (s : Stmt) : Numbers unlabeled c (checkRegisters s) := fun k =>
  Triple.look (eval_get c k) <| Triple.ite (fun _ => trivial) fun _ => Fresh.nil _

mutual

theorem numbers_stmt (path : Path) : (s : Stmt) → Numbers labelNames c (stmt path s)
  | .declare d init => numbers_declare path d init
  | .assign target source => numbers_assign path target source
  | .when cond body => fun k => by
    rw [stmt]
    refine (Numbers.freshLabel (by decide) k).bind fun elseLabel k₁ h₁ => ?_
    refine (Numbers.freshLabel (by decide) k₁).bind fun endLabel k₂ h₂ => ?_
    refine Triple.look (eval_comment _ c k₂) ?_
    refine (numbers_branchIfZero _ cond elseLabel k₂).bind fun test k₃ h₃ => ?_
    refine (numbers_enterBlock k₃).bind fun _ k₄ h₄ => ?_
    refine (numbers_stmts (1 :: path) 0 body k₄).bind fun body k₅ h₅ => Triple.pure ?_
    refine ((((h₁.append h₂).append h₃).append h₄).append h₅).of_count fun x => ?_
    simp [choice, mark, unlabeled, List.count_cons]
    omega
  | .branch cond yes no => fun k => by
    rw [stmt]
    refine (Numbers.freshLabel (by decide) k).bind fun elseLabel k₁ h₁ => ?_
    refine (Numbers.freshLabel (by decide) k₁).bind fun endLabel k₂ h₂ => ?_
    refine Triple.look (eval_comment _ c k₂) ?_
    refine (numbers_branchIfZero _ cond elseLabel k₂).bind fun test k₃ h₃ => ?_
    refine (numbers_enterBlock k₃).bind fun _ k₄ h₄ => ?_
    refine (numbers_stmts (1 :: path) 0 yes k₄).bind fun yes k₅ h₅ => ?_
    refine (numbers_enterBlock k₅).bind fun _ k₆ h₆ => ?_
    refine (numbers_stmts (2 :: path) 0 no k₆).bind fun no k₇ h₇ => Triple.pure ?_
    refine ((((((h₁.append h₂).append h₃).append h₄).append h₅).append h₆).append h₇).of_count
      fun x => ?_
    simp [choice, mark, unlabeled, List.count_cons]
    omega
  | .loop cond body => fun k => by
    rw [stmt]
    refine (Numbers.freshLabel (by decide) k).bind fun top k₁ h₁ => ?_
    refine (Numbers.freshLabel (by decide) k₁).bind fun stop k₂ h₂ => ?_
    refine Triple.look (eval_comment _ c k₂) ?_
    refine (numbers_branchIfZero _ cond stop k₂).bind fun test k₃ h₃ => ?_
    refine (numbers_enterBlock k₃).bind fun _ k₄ h₄ => ?_
    refine (numbers_stmts (1 :: path) 0 body k₄).bind fun body k₅ h₅ => Triple.pure ?_
    refine ((((h₁.append h₂).append h₃).append h₄).append h₅).of_count fun x => ?_
    simp [mark, unlabeled, List.count_cons]
    omega
  | .write e => fun k => by
    rw [stmt]
    refine Triple.look (eval_comment _ c k) ?_
    exact (numbers_write _ e k).bind fun code k₁ h => Triple.pure (h.of_count (by simp))
  | .read target => fun k => by
    rw [stmt]
    refine Triple.look (eval_comment _ c k) ?_
    exact (numbers_readInto _ target k).bind fun code k₁ h => Triple.pure (h.of_count (by simp))
  | .ret result => numbers_ret path result
  | .call e => numbers_evaluate .value (0 :: path) e

theorem numbers_stmts (path : Path) (i : Nat) :
    (ss : List Stmt) → Numbers labelNames c (stmts path i ss)
  | [] => Numbers.pure rfl
  | s :: ss => fun k => by
    rw [stmts]
    refine (numbers_stmt (i :: path) s k).bind fun code k₁ h₁ => ?_
    refine (numbers_checkRegisters s k₁).bind fun _ k₂ h₂ => ?_
    refine (numbers_stmts path (i + 1) ss k₂).bind fun rest k₃ h₃ => Triple.pure ?_
    exact ((h₁.append h₂).append h₃).of_count (by simp [unlabeled])

end

end MoonBackend.Emit
