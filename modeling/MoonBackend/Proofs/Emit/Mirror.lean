import MoonBackend.Proofs.Emit.Pool
import MoonBackend.Proofs.Emit.Shape
import MoonBackend.Proofs.Machine.Renaming
import MoonBackend.Proofs.Symbols.Names

/-!
# Two emissions side by side

A program is emitted under two configurations that differ in the registers and in whether comments
are wanted. A `Pairing` says which register of the one stands for which register of the other, and
`Lockstep` that a step of emission does the same on both sides: it raises the same fault, or it
answers lines that mirror each other and leaves the same number of labels and matching pools.
-/

namespace MoonBackend

open Text

/-- A correspondence between the registers of two configurations which agree on everything that
emission looks at besides the registers and whether comments are wanted. Pools match relative to the
pairs of registers that are held. -/
structure Pairing (a b : Config) where
  /-- The registers may stand for each other where a register is only read. -/
  reads : Register → Register → Prop
  /-- The registers may stand for each other everywhere. -/
  writes : Register → Register → Prop
  pools : List (Register × Register) → RegisterPool → RegisterPool → Prop
  /-- The names that comments show are written on one line. -/
  named : Prop
  /-- The labels that are made of names are identifiers, and so are the names of the library. -/
  worded : Prop
  runtimeNames : worded → ∀ s ∈ [a.runtime.bufferLabel, a.runtime.topOfMemory, a.runtime.intToString,
    a.runtime.printString, a.runtime.readString, a.runtime.stringToInt],
    Assembly.isIdentifier s.toList = true
  sizes : a.sizes = b.sizes
  runtime : a.runtime = b.runtime
  emit : { a.emit with comments := b.emit.comments } = b.emit
  reads_of_writes : ∀ {r s}, writes r s → reads r s
  unused : reads Item.unused Item.unused
  stackPointer : writes ⟨a.registers.stackPointer⟩ ⟨b.registers.stackPointer⟩
  zero : reads ⟨a.registers.zero⟩ ⟨b.registers.zero⟩
  returnValue : writes ⟨a.registers.returnValue⟩ ⟨b.registers.returnValue⟩
  link : writes ⟨a.registers.link⟩ ⟨b.registers.link⟩
  start : pools [] (.ofNumbers a.registers.general) (.ofNumbers b.registers.general)
  live : ∀ {held p q}, pools held p q → p.live = q.live
  /-- With fewer than eight registers held the pools answer alike. -/
  acquire : ∀ {held p q}, pools held p q → held.length < 8 →
    (∃ f, p.acquire = .error f ∧ q.acquire = .error f) ∨
    ∃ r s p' q', p.acquire = .ok (r, p') ∧ q.acquire = .ok (s, q') ∧ writes r s ∧
      pools ((r, s) :: held) p' q'
  release : ∀ {held p q r s}, pools held p q → (r, s) ∈ held →
    (∃ f, p.release r = .error f ∧ q.release s = .error f) ∨
    ∃ p' q', p.release r = .ok p' ∧ q.release s = .ok q' ∧ pools (held.erase (r, s)) p' q'

variable {a b : Config} (P : Pairing a b)

/-! ### Lines that mirror each other -/

/-- A name that stands in the text is an identifier when all names are words. -/
def Pairing.Spells (name : String) : Prop :=
  P.worded → Assembly.isIdentifier name.toList = true

def Item.Mirrors : Item → Item → Prop
  | .instruction i, .instruction j => i.op = j.op ∧ i.k = j.k ∧
    (i.op.sets = true → P.writes i.ri j.ri) ∧ P.reads i.ri j.ri ∧ P.reads i.rj j.rj ∧
    P.reads i.rk j.rk ∧ i.op.isDefined = true ∧ ∀ s, i.k = .name s → P.Spells s
  | .entry, .entry => True
  | .reserve m, .reserve n => m = n
  | _, _ => False

inductive Line.Mirrors : Line → Line → Prop
  | blank : Mirrors .blank .blank
  | plain {i j : Item} : i.Mirrors P j → Mirrors (.plain i) (.plain j)
  | labeled {i j : Item} {label : String} : P.Spells label → i.Mirrors P j →
    Mirrors (.labeled label i) (.labeled label j)

def Line.isComment : Line → Bool
  | .comment _ => true
  | _ => false

def Code.uncommented (c : Code) : Code := c.filter fun l => !l.isComment

def Code.Legible (c : Code) : Prop := ∀ text, Line.comment text ∈ c → OneLine text

/-- The lines that are no comments mirror each other one by one. With one-line names, comments are
written on one line. -/
structure Code.Mirrors (c d : Code) : Prop where
  lines : List.Forall₂ (Line.Mirrors P) c.uncommented d.uncommented
  legible : P.named → c.Legible ∧ d.Legible

/-- The locations differ only in registers that stand for each other. -/
structure Location.Mirrors (l m : Location) : Prop where
  base : P.writes l.base m.base
  off : l.off = m.off
  held : l.held = m.held

def Location.pairs (l m : Location) : List (Register × Register) :=
  if l.held then [(l.base, m.base)] else []

theorem Location.length_pairs (l m : Location) : (l.pairs m).length ≤ 1 := by
  unfold Location.pairs
  split <;> simp

/-! ### Mirroring by parts -/

section

variable {P}

theorem Item.mirrors_instruction {i j : Instruction Register Operand} :
    (Item.instruction i).Mirrors P (.instruction j) ↔ i.op = j.op ∧ i.k = j.k ∧
      (i.op.sets = true → P.writes i.ri j.ri) ∧ P.reads i.ri j.ri ∧ P.reads i.rj j.rj ∧
      P.reads i.rk j.rk ∧ i.op.isDefined = true ∧ ∀ s, i.k = .name s → P.Spells s := .rfl

@[simp] theorem Item.mirrors_reg3 {op : Opcode} {ri rj rk si sj sk : Register} :
    (Item.reg3 op ri rj rk).Mirrors P (Item.reg3 op si sj sk) ↔
      (op.sets = true → P.writes ri si) ∧ P.reads ri si ∧ P.reads rj sj ∧ P.reads rk sk
        ∧ op.isDefined = true := by
  simp [Item.mirrors_instruction, Item.reg3]

@[simp] theorem Item.mirrors_imm {op : Opcode} {ri rj si sj : Register} {n : Int64} :
    (Item.imm op ri rj n).Mirrors P (Item.imm op si sj n) ↔
      (op.sets = true → P.writes ri si) ∧ P.reads ri si ∧ P.reads rj sj ∧ op.isDefined = true := by
  simp [Item.mirrors_instruction, Item.imm, P.unused]

@[simp] theorem Item.mirrors_named {op : Opcode} {ri rj si sj : Register} {name : String} :
    (Item.named op ri rj name).Mirrors P (Item.named op si sj name) ↔
      (op.sets = true → P.writes ri si) ∧ P.reads ri si ∧ P.reads rj sj ∧ op.isDefined = true
        ∧ P.Spells name := by
  simp [Item.mirrors_instruction, Item.named, P.unused]

@[simp] theorem Item.mirrors_reg1 {op : Opcode} {ri si : Register} :
    (Item.reg1 op ri).Mirrors P (Item.reg1 op si) ↔
      (op.sets = true → P.writes ri si) ∧ P.reads ri si ∧ op.isDefined = true := by
  simp [Item.mirrors_instruction, Item.reg1, P.unused]

@[simp] theorem Item.mirrors_bare {op : Opcode} :
    (Item.bare op).Mirrors P (Item.bare op) ↔
      (op.sets = true → P.writes unused unused) ∧ op.isDefined = true := by
  simp [Item.mirrors_instruction, Item.bare, P.unused]

@[simp] theorem Item.mirrors_lw {r s base base' : Register} {off : Int64} :
    (Item.lw r off base).Mirrors P (Item.lw s off base') ↔ P.writes r s ∧ P.reads base base' := by
  simp only [Item.mirrors_instruction, Item.lw, P.unused, Opcode.sets, Opcode.isDefined, true_and, forall_const]
  exact ⟨fun h => ⟨h.1, h.2.2.1⟩, fun h => ⟨h.1, P.reads_of_writes h.1, h.2, nofun⟩⟩

@[simp] theorem Item.mirrors_sw {r s base base' : Register} {off : Int64} :
    (Item.sw off base r).Mirrors P (Item.sw off base' s) ↔ P.reads r s ∧ P.reads base base' := by
  simp [Item.mirrors_instruction, Item.sw, P.unused, Opcode.sets]

@[simp] theorem Item.mirrors_sl {r s : Register} {n : Int64} :
    (Item.sl r n).Mirrors P (Item.sl s n) ↔ P.writes r s := by
  simp only [Item.mirrors_instruction, Item.sl, P.unused, Opcode.sets, Opcode.isDefined, true_and, forall_const]
  exact ⟨fun h => h.1, fun h => ⟨h, P.reads_of_writes h, nofun⟩⟩

@[simp] theorem Item.mirrors_bz {r s : Register} {label : String} :
    (Item.bz r label).Mirrors P (Item.bz s label) ↔ P.reads r s ∧ P.Spells label := by
  simp [Item.mirrors_instruction, Item.bz, P.unused, Opcode.sets]

@[simp] theorem Item.mirrors_bnz {r s : Register} {label : String} :
    (Item.bnz r label).Mirrors P (Item.bnz s label) ↔ P.reads r s ∧ P.Spells label := by
  simp [Item.mirrors_instruction, Item.bnz, P.unused, Opcode.sets]

@[simp] theorem Item.mirrors_j {label : String} :
    (Item.j label).Mirrors P (Item.j label) ↔ P.Spells label := by
  simp [Item.mirrors_instruction, Item.j, P.unused, Opcode.sets]

@[simp] theorem Item.mirrors_jl {r s : Register} {label : String} :
    (Item.jl r label).Mirrors P (Item.jl s label) ↔ P.writes r s ∧ P.Spells label := by
  simp only [Item.mirrors_instruction, Item.jl, P.unused, Opcode.sets, Opcode.isDefined, true_and, forall_const,
    Operand.name.injEq, forall_eq']
  exact ⟨fun h => ⟨h.1, h.2.2⟩, fun h => ⟨h.1, P.reads_of_writes h.1, h.2⟩⟩

namespace Code.Mirrors

variable {c d c' d' : Code}

theorem nil : Mirrors P [] [] := ⟨.nil, fun _ => ⟨nofun, nofun⟩⟩

theorem append (h : Mirrors P c d) (h' : Mirrors P c' d') :
    Mirrors P (c ++ c') (d ++ d') := by
  refine ⟨?_, fun hn => ⟨fun text hm => ?_, fun text hm => ?_⟩⟩
  · rw [uncommented, uncommented, List.filter_append, List.filter_append]
    exact List.rel_append h.lines h'.lines
  · exact (List.mem_append.1 hm).elim ((h.legible hn).1 text) ((h'.legible hn).1 text)
  · exact (List.mem_append.1 hm).elim ((h.legible hn).2 text) ((h'.legible hn).2 text)

theorem cons {l m : Line} (hl : l.Mirrors P m) (h : Mirrors P c d) :
    Mirrors P (l :: c) (m :: d) := by
  have hm : l.isComment = false ∧ m.isComment = false := by
    cases hl <;> exact ⟨rfl, rfl⟩
  refine ⟨?_, fun hn => ⟨fun text ht => ?_, fun text ht => ?_⟩⟩
  · rw [uncommented, uncommented, List.filter_cons_of_pos (by simp [hm.1]),
      List.filter_cons_of_pos (by simp [hm.2])]
    exact .cons hl h.lines
  · refine (List.mem_cons.1 ht).elim (fun he => ?_) ((h.legible hn).1 text)
    exact absurd hm.1 (by rw [← he]; simp [Line.isComment])
  · refine (List.mem_cons.1 ht).elim (fun he => ?_) ((h.legible hn).2 text)
    exact absurd hm.2 (by rw [← he]; simp [Line.isComment])

theorem plain {is js : List Item} (h : List.Forall₂ (Item.Mirrors P) is js) :
    Mirrors P (Code.plain is) (Code.plain js) := by
  induction h with
  | nil => exact nil
  | cons hi _ ih => exact cons (.plain hi) ih

theorem mark {label : String} (h : P.Spells label) :
    Mirrors P [Code.mark label] [Code.mark label] := cons (.labeled h (by simp)) nil

theorem note {text : String} (x y : Bool) (h : P.named → OneLine text) :
    Mirrors P (if x then [.comment text] else []) (if y then [.comment text] else []) := by
  have hl : ∀ z : Bool, uncommented (if z then [.comment text] else []) = [] := by
    rintro (_ | _) <;> rfl
  refine ⟨by rw [hl, hl]; exact .nil, fun hn => ⟨fun text' ht => ?_, fun text' ht => ?_⟩⟩
  · split at ht <;> simp_all
  · split at ht <;> simp_all

end Code.Mirrors

end

/-! ### Steps side by side -/

namespace Emit

variable {α β γ δ : Type}

abbrev Context.under (c : Context) (config : Config) : Context := { c with config := config }

/-- Both steps raise the same fault, or they answer what `R` relates, with as many labels used, and
with pools that match relative to the pairs that are held `after`. -/
inductive EndsAlike (after : α → β → List (Register × Register)) (R : α → β → Prop) :
    Except Fault α × Counts → Except Fault β × Counts → Prop
  | answer {x : α} {y : β} {s t : Counts} : R x y → P.pools (after x y) s.pool t.pool →
    s.labels = t.labels → EndsAlike after R (.ok x, s) (.ok y, t)
  | fault (f : Fault) (s t : Counts) : EndsAlike after R (.error f, s) (.error f, t)

/-- From counts that match, with the pairs `held` in use, the two steps end alike. -/
def Lockstep (c : Context) (held : List (Register × Register))
    (after : α → β → List (Register × Register)) (x : Emit α) (y : Emit β) (R : α → β → Prop) : Prop :=
  ∀ s t, P.pools held s.pool t.pool → s.labels = t.labels →
    EndsAlike P after R (eval x (c.under a) s) (eval y (c.under b) t)

/-- The two steps end alike and hold the same registers afterwards as before. -/
def Abreast (c : Context) (held : List (Register × Register)) (x : Emit α) (y : Emit β)
    (R : α → β → Prop) : Prop := Lockstep P c held (fun _ _ => held) x y R

/-- What the step answers does not depend on which of the two configurations is used. -/
def Settled (a b : Config) (c : Context) (x : Emit α) : Prop :=
  ∃ v, ∀ s, eval x (c.under a) s = (v, s) ∧ eval x (c.under b) s = (v, s)

variable {P} {c : Context} {held : List (Register × Register)}

namespace Settled

theorem of_eval {x : Emit α} (v : Except Fault α) (ha : ∀ s, eval x (c.under a) s = (v, s))
    (hb : ∀ s, eval x (c.under b) s = (v, s)) : Settled a b c x := ⟨v, fun s => ⟨ha s, hb s⟩⟩

theorem pure (x : α) : Settled a b c (pure x : Emit α) := of_eval (.ok x) (fun _ => rfl) fun _ => rfl

theorem throw (f : Fault) : Settled a b c (throw f : Emit α) :=
  of_eval (.error f) (fun _ => rfl) fun _ => rfl

theorem lift (x : Except Fault α) : Settled a b c (lift x) := of_eval x (eval_lift x _) (eval_lift x _)

theorem bind {x : Emit α} {f : α → Emit β} (hx : Settled a b c x) (hf : ∀ v, Settled a b c (f v)) :
    Settled a b c (x >>= f) := by
  obtain ⟨_ | v, hv⟩ := hx
  · rename_i e
    exact of_eval (.error e) (fun s => eval_bind_error (hv s).1) fun s => eval_bind_error (hv s).2
  · obtain ⟨w, hw⟩ := hf v
    exact of_eval w (fun s => (eval_bind_ok (hv s).1).trans (hw s).1)
      fun s => (eval_bind_ok (hv s).2).trans (hw s).2

theorem ite {p : Prop} [Decidable p] {x y : Emit α} (hx : Settled a b c x) (hy : Settled a b c y) :
    Settled a b c (if p then x else y) := by
  split
  · exact hx
  · exact hy

theorem frameSize : Settled a b c frameSize :=
  of_eval c.scope.frameSize (eval_frameSize _) (eval_frameSize _)

theorem slotOffset (node : Backing) (kind : EntryKind) : Settled a b c (slotOffset node kind) :=
  of_eval _ (eval_slotOffset node kind _) (eval_slotOffset node kind _)

theorem temporary (path : Path) (e : Expr) : Settled a b c (temporary path e) := slotOffset _ _

theorem ownSlot (kind : EntryKind) : Settled a b c (ownSlot kind) :=
  of_eval _ (eval_slotOffset (.function c.index c.head) kind _)
    (eval_slotOffset (.function c.index c.head) kind _)

theorem resolve (name : String) : Settled a b c (resolve? name) :=
  of_eval (.ok (c.layout.table.resolveName c.index name)) (fun _ => rfl) fun _ => rfl

theorem placeOf (path : Path) (e : Expr) : Settled a b c (placeOf path e) := by
  cases e with
  | int v => exact pure _
  | var name type =>
    refine (resolve name).bind fun found => ?_
    split
    · exact (lift _).bind fun _ => pure _
    · exact (temporary _ _).bind fun _ => pure _
  | _ => exact (temporary _ _).bind fun _ => pure _

theorem sizeOf (type : Ty) : Settled a b c (do Emit.lift ((← read).layout.sizeOf type)) :=
  of_eval (c.layout.sizeOf type) (eval_lift _ _) (eval_lift _ _)

end Settled

theorem settled_wordSize (P : Pairing a b) : Settled a b c wordSize :=
  .of_eval (.ok a.sizes.word) (fun _ => rfl) fun s => by
    rw [eval_wordSize, P.sizes]

theorem settled_words (P : Pairing a b) (t : Ty) : Settled a b c (words t) := by
  refine .ite (.throw _) (.ite (.throw _) ?_)
  rw [← bind_assoc]
  exact (Settled.sizeOf t).bind fun _ => (settled_wordSize P).bind fun _ => .ite (.pure _) (.throw _)

/-! ### Steps in a sequence -/

namespace Lockstep

variable {after : α → β → List (Register × Register)} {after' : γ → δ → List (Register × Register)}
  {R : α → β → Prop} {Q : γ → δ → Prop} {x : Emit α} {y : Emit β}

theorem pure {v : α} {w : β} (h : R v w) : Abreast P c held (pure v : Emit α) (pure w) R :=
  fun _ _ hp hl => .answer h hp hl

theorem answer {v : α} {w : β} (h : R v w) (hheld : after v w = held) :
    Lockstep P c held after (Pure.pure v : Emit α) (Pure.pure w) R :=
  fun _ _ hp hl => .answer h (hheld ▸ hp) hl

theorem throw {f : Fault} : Lockstep P c held after (throw f : Emit α) (throw f) R :=
  fun _ _ _ _ => .fault f _ _

theorem bind {f : α → Emit γ} {g : β → Emit δ} (h : Lockstep P c held after x y R)
    (hf : ∀ v w, R v w → Lockstep P c (after v w) after' (f v) (g w) Q) :
    Lockstep P c held after' (x >>= f) (y >>= g) Q := by
  intro s t hp hl
  have hxy := h s t hp hl
  rw [eval_bind, eval_bind]
  generalize eval x (c.under a) s = u, eval y (c.under b) t = v at hxy
  cases hxy with
  | answer hr hp' hl' => exact hf _ _ hr _ _ hp' hl'
  | fault f s' t' => exact .fault f s' t'

theorem mono {S : α → β → Prop} (h : Lockstep P c held after x y R) (hs : ∀ v w, R v w → S v w) :
    Lockstep P c held after x y S := by
  intro s t hp hl
  have hxy := h s t hp hl
  generalize eval x (c.under a) s = u, eval y (c.under b) t = v at hxy ⊢
  cases hxy with
  | answer hr hp' hl' => exact .answer (hs _ _ hr) hp' hl'
  | fault f s' t' => exact .fault f s' t'

theorem ite {p : Prop} [Decidable p] {x' : Emit α} {y' : Emit β}
    (h : p → Lockstep P c held after x y R) (h' : ¬ p → Lockstep P c held after x' y' R) :
    Lockstep P c held after (if p then x else x') (if p then y else y') R := by
  split
  · exact h ‹p›
  · exact h' ‹¬ p›

theorem settled {z : Emit α} {f : α → Emit γ} {g : α → Emit δ} (hz : Settled a b c z)
    (hf : ∀ v, Lockstep P c held after' (f v) (g v) Q) :
    Lockstep P c held after' (z >>= f) (z >>= g) Q := by
  obtain ⟨_ | v, hv⟩ := hz
  · intro s t _ _
    rw [eval_bind_error (hv s).1, eval_bind_error (hv t).2]
    exact .fault _ _ _
  · intro s t hp hl
    rw [eval_bind_ok (hv s).1, eval_bind_ok (hv t).2]
    exact hf v s t hp hl

theorem context {f : Context → Emit γ} {g : Context → Emit δ}
    (h : Lockstep P c held after' (f (c.under a)) (g (c.under b)) Q) :
    Lockstep P c held after' (read >>= f) (read >>= g) Q := h

theorem freshLabel (start : String) :
    Abreast P c held (freshLabel start) (freshLabel start) fun l m =>
      l = m ∧ ∃ n : ℕ, l = start ++ decimal n := by
  intro s t hp hl
  rw [eval_freshLabel, eval_freshLabel, hl]
  exact .answer ⟨rfl, _, rfl⟩ hp rfl

theorem stackPointer : Abreast P c held stackPointer stackPointer P.writes :=
  fun _ _ hp hl => .answer P.stackPointer hp hl

theorem zero : Abreast P c held zero zero P.reads := fun _ _ hp hl => .answer P.zero hp hl

theorem resultRegister : Abreast P c held resultRegister resultRegister P.writes :=
  fun _ _ hp hl => .answer P.returnValue hp hl

theorem link : Abreast P c held link link P.writes := fun _ _ hp hl => .answer P.link hp hl

theorem frame (off : Int64) : Abreast P c held (frame off) (frame off) fun l m =>
    l.Mirrors P m ∧ l.held = false := fun _ _ hp hl =>
  .answer ⟨⟨P.stackPointer, rfl, rfl⟩, rfl⟩ hp hl

theorem comment {text : String} {f : Code → Emit γ} {g : Code → Emit δ}
    (hf : ∀ n m, ((P.named → OneLine text) → n.Mirrors P m) →
      Lockstep P c held after' (f n) (g m) Q) :
    Lockstep P c held after' (comment text >>= f) (comment text >>= g) Q :=
  hf _ _ fun h => .note _ _ h

/-! ### Registers -/

theorem acquire (hk : held.length < 8) :
    Lockstep P c held (fun r s => (r, s) :: held) acquire acquire P.writes := by
  intro s t hp hl
  rw [eval_acquire, eval_acquire]
  rcases P.acquire hp hk with ⟨f, hf, hg⟩ | ⟨r, r', p, q, hf, hg, hr, hpq⟩
  · rw [hf, hg]
    exact .fault f s t
  · rw [hf, hg]
    exact .answer hr hpq hl

theorem release {r r' : Register} (hm : (r, r') ∈ held) :
    Lockstep P c held (fun _ _ => held.erase (r, r')) (release r) (release r')
      fun _ _ => True := by
  intro s t hp hl
  rw [eval_release, eval_release]
  rcases P.release hp hm with ⟨f, hf, hg⟩ | ⟨p, q, hf, hg, hpq⟩
  · rw [hf, hg]
    exact .fault f s t
  · rw [hf, hg]
    exact .answer trivial hpq hl

theorem releaseLocation {l m : Location} (h : l.Mirrors P m) (hm : l.held = true → (l.base, m.base) ∈ held) :
    Lockstep P c held (fun _ _ => if l.held then held.erase (l.base, m.base) else held)
      (releaseLocation l) (releaseLocation m) fun _ _ => True := by
  unfold Emit.releaseLocation
  rw [← h.held]
  cases hl : l.held with
  | true => exact release (hm hl)
  | false => exact pure trivial

abbrev taken (rs ss : List Register) : List (Register × Register) := (rs.zip ss).reverse

theorem acquireMany (n : ℕ) {p q : RegisterPool} (hp : P.pools held p q) (hk : held.length + n ≤ 8) :
    (∃ f p' q', p.acquireMany n = (.error f, p') ∧ q.acquireMany n = (.error f, q')) ∨
    ∃ rs ss p' q', p.acquireMany n = (.ok rs, p') ∧ q.acquireMany n = (.ok ss, q') ∧
      rs.length = n ∧ List.Forall₂ P.writes rs ss ∧ P.pools (taken rs ss ++ held) p' q' := by
  induction n generalizing held p q with
  | zero => exact .inr ⟨[], [], p, q, rfl, rfl, rfl, .nil, hp⟩
  | succ n ih =>
    unfold RegisterPool.acquireMany
    rcases P.acquire hp (by omega) with ⟨f, hf, hg⟩ | ⟨r, s, p₁, q₁, hf, hg, hr, hpq⟩
    · rw [hf, hg]
      exact .inl ⟨f, p, q, rfl, rfl⟩
    · rw [hf, hg]
      rcases ih hpq (by simp; omega) with ⟨f, p₂, q₂, hf', hg'⟩ |
        ⟨rs, ss, p₂, q₂, hf', hg', hn, hrs, hpq'⟩
      · simp only [hf', hg']
        exact .inl ⟨f, p₂, q₂, rfl, rfl⟩
      · simp only [hf', hg']
        refine .inr ⟨r :: rs, s :: ss, p₂, q₂, rfl, rfl, by simp [hn], .cons hr hrs, ?_⟩
        simpa [taken] using hpq'

theorem releaseMany {rs ss : List Register} (hlen : rs.length = ss.length) {p q : RegisterPool}
    (hp : P.pools (rs.zip ss ++ held) p q) :
    (∃ f p' q', p.releaseMany rs = (.error f, p') ∧ q.releaseMany ss = (.error f, q')) ∨
    ∃ p' q', p.releaseMany rs = (.ok (), p') ∧ q.releaseMany ss = (.ok (), q') ∧
      P.pools held p' q' := by
  induction rs generalizing ss p q with
  | nil =>
    obtain rfl := List.eq_nil_of_length_eq_zero hlen.symm
    exact .inr ⟨p, q, rfl, rfl, hp⟩
  | cons r rs ih =>
    obtain ⟨s, ss, rfl⟩ := List.exists_cons_of_length_eq_add_one hlen.symm
    simp only [RegisterPool.releaseMany]
    rcases P.release (r := r) (s := s) hp (by simp) with ⟨f, hf, hg⟩ | ⟨p₁, q₁, hf, hg, hpq⟩
    · rw [hf, hg]
      exact .inl ⟨f, p, q, rfl, rfl⟩
    · rw [hf, hg]
      refine ih (by simpa using hlen) ?_
      simpa using hpq

theorem zip_reverse {rs ss : List Register} (hlen : rs.length = ss.length) :
    rs.reverse.zip ss.reverse = taken rs ss := by
  rw [List.zip_eq_zipWith, ← List.reverse_zipWith hlen, ← List.zip_eq_zipWith]

theorem withRegisters {n : ℕ} {f g : List Register → Emit α} {R : α → α → Prop}
    (hk : held.length + n ≤ 8) (hstill : ∀ rs, Still (f rs)) (hstill' : ∀ rs, Still (g rs))
    (h : ∀ rs ss, rs.length = n → List.Forall₂ P.writes rs ss →
      Abreast P c (taken rs ss ++ held) (f rs) (g ss) R) :
    Abreast P c held (withRegisters n f) (withRegisters n g) R := by
  intro s t hp hl
  rw [eval_withRegisters, eval_withRegisters]
  rcases acquireMany n hp hk with ⟨e, p, q, hf, hg⟩ | ⟨rs, ss, p, q, hf, hg, hn, hrs, hpq⟩
  · rw [hf, hg]
    exact .fault e _ _
  · rw [hf, hg]
    have hlen := hrs.length_eq
    have hbody := h rs ss hn hrs { s with pool := p } { t with pool := q } hpq hl
    have hpool := hstill rs (c.under a) { s with pool := p }
    have hpool' := hstill' ss (c.under b) { t with pool := q }
    -- the body leaves both pools alone, so the same registers go back whatever it answers
    have hzip : P.pools (rs.reverse.zip ss.reverse ++ held) p q := by rwa [zip_reverse hlen]
    have hback := releaseMany (by simpa using hlen) hzip
    simp only
    generalize eval (f rs) (c.under a) { s with pool := p } = u at hbody hpool ⊢
    generalize eval (g ss) (c.under b) { t with pool := q } = v at hbody hpool' ⊢
    cases hbody with
    | answer hr _ hl' =>
      simp only at hpool hpool' ⊢
      rw [hpool, hpool']
      rcases hback with ⟨e, p', q', hp', hq'⟩ | ⟨p', q', hp', hq', hpq'⟩
      · rw [hp', hq']
        exact .fault e _ _
      · rw [hp', hq']
        exact .answer hr hpq' hl'
    | fault e s' t' =>
      simp only at hpool hpool' ⊢
      rw [hpool, hpool']
      rcases hback with ⟨e', p', q', hp', hq'⟩ | ⟨p', q', hp', hq', -⟩
      · rw [hp', hq']
        exact .fault e' _ _
      · rw [hp', hq']
        exact .fault e _ _

theorem withRegister {f g : Register → Emit α} {R : α → α → Prop} (hk : held.length < 8)
    (hstill : ∀ r, Still (f r)) (hstill' : ∀ r, Still (g r))
    (h : ∀ r s, P.writes r s → Abreast P c ((r, s) :: held) (f r) (g s) R) :
    Abreast P c held (withRegister f) (withRegister g) R := by
  refine withRegisters hk (fun _ => hstill _) (fun _ => hstill' _) fun rs ss hn hrs => ?_
  cases hrs with
  | nil => cases hn
  | cons hr hrest =>
    obtain rfl := List.eq_nil_of_length_eq_zero (Nat.succ.inj hn)
    cases hrest
    exact h _ _ hr

end Lockstep

theorem Abreast.bind {x : Emit α} {y : Emit β} {R : α → β → Prop} {Q : γ → δ → Prop}
    {after : γ → δ → List (Register × Register)} {f : α → Emit γ} {g : β → Emit δ}
    (h : Abreast P c held x y R) (hf : ∀ v w, R v w → Lockstep P c held after (f v) (g w) Q) :
    Lockstep P c held after (x >>= f) (y >>= g) Q :=
  Lockstep.bind h hf

end Emit

end MoonBackend
