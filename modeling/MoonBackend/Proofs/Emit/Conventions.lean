import MoonBackend.Proofs.Emit.Lockstep
import MoonBackend.Proofs.Emit.Written
import MoonBackend.Proofs.Layout.Resolution

/-!
# Register conventions

Emission never holds more than eight scratch registers, so of two conventions with that many it takes
registers in the same order from either. The code of a program is then the same up to the registers,
and where both conventions keep the registers of the library, so is everything that a run does.
-/

namespace MoonBackend

open Assembly Emit

/-! ### Accepted conventions -/

namespace Registers

/-- The registers that emitted code writes: three reserved ones, and as many scratch registers as
emission ever holds. -/
def written (r : Registers) : List Int64 :=
  [r.stackPointer, r.returnValue, r.link] ++ r.general.take 8

end Registers

structure Registers.Distinct (r : Registers) : Prop where
  written : r.written.Nodup
  zero : r.zero ∉ r.written
  range : ∀ x ∈ r.general, 0 ≤ x ∧ x ≤ 15

theorem Config.distinct_of_validate {c : Config} (h : c.validate = .ok ()) : c.registers.Distinct := by
  have hgeneral := Registers.of_checkGeneral (accepted_of_validate h).general
  have hnodup := nodup_general_of_validate h
  have hfour := (accepted_of_validate h).reserved
  have hapart : ∀ x ∈ c.registers.general.take 8, x ∉ c.registers.reserved.map Prod.fst :=
    fun x hx => (hgeneral x (List.mem_of_mem_take hx)).2
  simp only [Registers.reserved, List.map_cons, List.map_nil, List.nodup_cons, List.mem_cons,
    List.not_mem_nil, or_false, not_or] at hfour hapart
  refine ⟨?_, ?_, fun x hx => (hgeneral x hx).1⟩
  · refine List.nodup_append.2 ⟨by simp; tauto, hnodup.sublist (List.take_sublist _ _), ?_⟩
    rintro x hx y hy rfl
    have := hapart x hy
    simp only [List.mem_cons, List.not_mem_nil, or_false] at hx
    tauto
  · intro hm
    rcases List.mem_append.1 hm with hm | hm
    · simp only [List.mem_cons, List.not_mem_nil, or_false] at hm
      tauto
    · exact (hapart _ hm).1 rfl

/-! ### Registers with the same role -/

theorem getElem?_of_mem_zip {α β : Type} {l : List α} {l' : List β} {x : α} {y : β}
    (h : (x, y) ∈ l.zip l') : ∃ i : ℕ, l[i]? = some x ∧ l'[i]? = some y := by
  obtain ⟨i, hi⟩ := List.mem_iff_getElem?.1 h
  rw [List.getElem?_zip_eq_some] at hi
  exact ⟨i, hi⟩

theorem eq_iff_of_mem_zip {α β : Type} {l : List α} {l' : List β} (hn : l.Nodup) (hn' : l'.Nodup)
    {x x' : α} {y y' : β} (h : (x, y) ∈ l.zip l') (h' : (x', y') ∈ l.zip l') : x = x' ↔ y = y' := by
  obtain ⟨i, hx, hy⟩ := getElem?_of_mem_zip h
  obtain ⟨j, hx', hy'⟩ := getElem?_of_mem_zip h'
  constructor
  · rintro rfl
    have hij : i = j := (List.getElem?_inj (List.getElem?_eq_some_iff.1 hx).1 hn).1 (hx.trans hx'.symm)
    exact Option.some.inj (hy.symm.trans (hij ▸ hy'))
  · rintro rfl
    have hij : i = j := (List.getElem?_inj (List.getElem?_eq_some_iff.1 hy).1 hn').1 (hy.trans hy'.symm)
    exact Option.some.inj (hx.symm.trans (hij ▸ hx'))

namespace Registers

def scratch (x y : Registers) : List (Register × Register) :=
  ((x.general.take 8).map Register.mk).zip ((y.general.take 8).map Register.mk)

def roles (x y : Registers) : List (Register × Register) :=
  (x.written.map Register.mk).zip (y.written.map Register.mk)

theorem roles_eq (x y : Registers) : x.roles y =
    [(⟨x.stackPointer⟩, ⟨y.stackPointer⟩), (⟨x.returnValue⟩, ⟨y.returnValue⟩), (⟨x.link⟩, ⟨y.link⟩)]
      ++ x.scratch y := rfl

theorem length_scratch {x y : Registers} (hx : 8 ≤ x.general.length) (hy : 8 ≤ y.general.length) :
    (x.scratch y).length = 8 := by
  simp [scratch, hx, hy]

end Registers

/-! ### Pools that are used alike -/

/-- The pools hold the registers of the pairs that are held, and hand out next, one by one, those of
the other pairs of a stock. -/
structure RegisterPool.Matches (stock held : List (Register × Register)) (p q : RegisterPool) : Prop where
  left : p.Sound
  right : q.Sound
  held_left : p.held = held.map Prod.fst
  held_right : q.held = held.map Prod.snd
  free : ∃ free rest rest', p.free = free.map Prod.fst ++ rest ∧ q.free = free.map Prod.snd ++ rest'
    ∧ (free ++ held).Perm stock

theorem map_erase_of_nodup {α β : Type} [BEq α] [LawfulBEq α] [DecidableEq β] (f : α → β) {l : List α}
    (hn : (l.map f).Nodup) {x : α} (hx : x ∈ l) : (l.erase x).map f = (l.map f).erase (f x) := by
  induction l with
  | nil => cases hx
  | cons y l ih =>
    obtain ⟨hy, hl⟩ := List.nodup_cons.1 hn
    by_cases he : y = x
    · subst he
      simp
    · have hx' : x ∈ l := (List.mem_cons.1 hx).resolve_left (Ne.symm he)
      have hne : f y ≠ f x := fun h => hy (h ▸ List.mem_map_of_mem hx')
      rw [List.erase_cons_tail (by simpa using he), List.map_cons, List.map_cons, ih hl hx',
        List.erase_cons_tail (by simpa using hne)]

namespace RegisterPool.Matches

variable {stock held : List (Register × Register)} {p q : RegisterPool} {r s : Register}

theorem start {a b : Config} (ha : a.validate = .ok ()) (hb : b.validate = .ok ())
    (hla : 8 ≤ a.registers.general.length) (hlb : 8 ≤ b.registers.general.length) :
    Matches (a.registers.scratch b.registers) [] (.ofNumbers a.registers.general)
      (.ofNumbers b.registers.general) where
  left := sound_ofNumbers (Config.nodup_general_of_validate ha)
  right := sound_ofNumbers (Config.nodup_general_of_validate hb)
  held_left := rfl
  held_right := rfl
  free := by
    refine ⟨a.registers.scratch b.registers, (a.registers.general.drop 8).map Register.mk,
      (b.registers.general.drop 8).map Register.mk, ?_, ?_, by rw [List.append_nil]⟩
    · rw [Registers.scratch, List.map_fst_zip (by simp; omega), ← List.map_append, List.take_append_drop]
      rfl
    · rw [Registers.scratch, List.map_snd_zip (by simp; omega), ← List.map_append, List.take_append_drop]
      rfl

theorem acquire (h : Matches stock held p q) (hlt : held.length < stock.length) :
    ∃ r s p' q', p.acquire = .ok (r, p') ∧ q.acquire = .ok (s, q') ∧ (r, s) ∈ stock
      ∧ Matches stock ((r, s) :: held) p' q' := by
  obtain ⟨free, rest, rest', hp, hq, hperm⟩ := h.free
  have hlen := hperm.length_eq
  rw [List.length_append] at hlen
  cases free with
  | nil =>
    rw [List.length_nil] at hlen
    omega
  | cons pair free =>
    obtain ⟨r, s⟩ := pair
    refine ⟨r, s, _, _, h.left.acquire hp, h.right.acquire hq, hperm.subset (by simp),
      h.left.of_acquire hp, h.right.of_acquire hq, ?_, ?_, free, rest, rest', rfl, rfl,
      List.perm_middle.trans hperm⟩
    · rw [h.held_left, List.map_cons]
    · rw [h.held_right, List.map_cons]

theorem release (h : Matches stock held p q) (hm : (r, s) ∈ held) :
    ∃ p' q', p.release r = .ok p' ∧ q.release s = .ok q' ∧ Matches stock (held.erase (r, s)) p' q' := by
  obtain ⟨free, rest, rest', hp, hq, hperm⟩ := h.free
  have hr : r ∈ p.held := h.held_left ▸ List.mem_map_of_mem hm
  have hs : s ∈ q.held := h.held_right ▸ List.mem_map_of_mem hm
  have hnodup : p.held.Nodup := (List.nodup_append.1 h.left.nodup).2.1
  have hnodup' : q.held.Nodup := (List.nodup_append.1 h.right.nodup).2.1
  refine ⟨_, _, release_eq_ok_iff.2 ⟨(h.left.mem_general r).2 (.inr hr), hr, rfl⟩,
    release_eq_ok_iff.2 ⟨(h.right.mem_general s).2 (.inr hs), hs, rfl⟩, h.left.of_erase hr,
    h.right.of_erase hs, ?_, ?_, (r, s) :: free, rest, rest', ?_, ?_, ?_⟩
  · rw [h.held_left] at hnodup
    exact (congrArg (·.erase r) h.held_left).trans (map_erase_of_nodup _ hnodup hm).symm
  · rw [h.held_right] at hnodup'
    exact (congrArg (·.erase s) h.held_right).trans (map_erase_of_nodup _ hnodup' hm).symm
  · rw [hp]
    rfl
  · rw [hq]
    rfl
  · refine (List.Perm.trans ?_ hperm)
    exact List.perm_middle.symm.trans (List.Perm.append_left free (List.perm_cons_erase hm).symm)

end RegisterPool.Matches

/-- Two accepted configurations that differ in their registers only, with at least eight scratch
registers each. Registers that are only read may also be the zero register or register 0. -/
def Pairing.conventions {a b : Config} (ha : a.validate = .ok ()) (hb : b.validate = .ok ())
    (hab : { a with registers := b.registers } = b) (hla : 8 ≤ a.registers.general.length)
    (hlb : 8 ≤ b.registers.general.length) (named worded : Prop)
    (hruntime : worded → ∀ s ∈ [a.runtime.bufferLabel, a.runtime.topOfMemory, a.runtime.intToString,
      a.runtime.printString, a.runtime.readString, a.runtime.stringToInt],
      isIdentifier s.toList = true) : Pairing a b where
  reads r s := (r, s) ∈ a.registers.roles b.registers ∨
    (r = Item.unused ∨ r = ⟨a.registers.zero⟩) ∧ (s = Item.unused ∨ s = ⟨b.registers.zero⟩)
  writes r s := (r, s) ∈ a.registers.roles b.registers
  pools := RegisterPool.Matches (a.registers.scratch b.registers)
  named := named
  worded := worded
  runtimeNames := hruntime
  sizes := by rw [← hab]
  runtime := by rw [← hab]
  emit := by rw [← hab]
  reads_of_writes := .inl
  unused := .inr ⟨.inl rfl, .inl rfl⟩
  stackPointer := by simp [Registers.roles_eq]
  zero := .inr ⟨.inr rfl, .inr rfl⟩
  returnValue := by simp [Registers.roles_eq]
  link := by simp [Registers.roles_eq]
  start := .start ha hb hla hlb
  live h := by
    rw [RegisterPool.live, RegisterPool.live, h.held_left, h.held_right, List.length_map, List.length_map]
  acquire h hlt := by
    rw [← Registers.length_scratch hla hlb] at hlt
    obtain ⟨r, s, p', q', hp, hq, hm, hpq⟩ := h.acquire hlt
    exact .inr ⟨r, s, p', q', hp, hq, by rw [Registers.roles_eq]; exact List.mem_append_right _ hm, hpq⟩
  release h hm := .inr (h.release hm)

/-! ### Conventions of the machine -/

/-- The convention gives the registers of the library the roles that the library gives them, names a
zero register that exists, and has no use for register 0 as a scratch register. -/
structure Registers.Standard (r : Registers) : Prop where
  stackPointer : r.stackPointer = 14
  returnValue : r.returnValue = 13
  link : r.link = 15
  zero : 0 ≤ r.zero ∧ r.zero ≤ 15
  scratch : 0 ∉ r.general.take 8

namespace Registers

variable {x y : Registers}

theorem Standard.writable (h : x.Standard) (hd : x.Distinct) : ∀ n ∈ x.written, Register.Writable ⟨n⟩ := by
  intro n hn
  rcases List.mem_append.1 hn with hn | hn
  · simp only [h.stackPointer, h.returnValue, h.link, List.mem_cons, List.not_mem_nil, or_false] at hn
    rcases hn with rfl | rfl | rfl <;> decide
  · obtain ⟨hlow, hhigh⟩ := hd.range n (List.mem_of_mem_take hn)
    have hne : n ≠ 0 := fun he => h.scratch (he ▸ hn)
    unfold Register.Writable
    simp only [Int64.lt_iff_toInt_lt, Int64.le_iff_toInt_le, ← Int64.toInt_inj, ne_eq] at hlow hhigh hne ⊢
    have h0 : (0 : Int64).toInt = 0 := rfl
    have h15 : (15 : Int64).toInt = 15 := rfl
    have h16 : (16 : Int64).toInt = 16 := rfl
    omega

theorem mem_written_of_mem_roles {r s : Register} (h : (r, s) ∈ x.roles y) :
    r.number ∈ x.written ∧ s.number ∈ y.written := by
  obtain ⟨hr, hs⟩ := List.of_mem_zip h
  obtain ⟨n, hn, rfl⟩ := List.mem_map.1 hr
  obtain ⟨k, hk, rfl⟩ := List.mem_map.1 hs
  exact ⟨hn, hk⟩

theorem eq_iff_of_mem_roles (hx : x.Distinct) (hy : y.Distinct) {r r' s s' : Register}
    (h : (r, s) ∈ x.roles y) (h' : (r', s') ∈ x.roles y) : r = r' ↔ s = s' := by
  have hn : ∀ {z : Registers}, z.Distinct → (z.written.map Register.mk).Nodup := fun hz =>
    List.pairwise_map.2 (hz.written.imp fun hne he => hne (by simpa using he))
  exact eq_iff_of_mem_zip (hn hx) (hn hy) h h'

def correspondence (hx : x.Distinct) (hy : y.Distinct) (hx' : x.Standard) (hy' : y.Standard) : Renaming where
  pairs i j := ∃ r s, (r, s) ∈ x.roles y ∧ r.index? = some i ∧ s.index? = some j
  unique_right := by
    rintro i j j' ⟨r, s, h, hi, hj⟩ ⟨r', s', h', hi', hj'⟩
    have hs : s = s' := (eq_iff_of_mem_roles hx hy h h').1 (Machine.index?_inj hi hi')
    rw [← hs, hj] at hj'
    exact Option.some.inj hj'
  unique_left := by
    rintro i i' j ⟨r, s, h, hi, hj⟩ ⟨r', s', h', hi', hj'⟩
    have hr : r = r' := (eq_iff_of_mem_roles hx hy h h').2 (Machine.index?_inj hj hj')
    rw [← hr, hi] at hi'
    exact Option.some.inj hi'
  range := by
    rintro i j ⟨r, s, h, hi, hj⟩
    obtain ⟨hr, hs⟩ := mem_written_of_mem_roles h
    obtain ⟨i', hi', hne, hlt⟩ := Machine.index?_of_writable (hx'.writable hx _ hr)
    obtain ⟨j', hj', hne', hlt'⟩ := Machine.index?_of_writable (hy'.writable hy _ hs)
    rw [hi] at hi'
    rw [hj] at hj'
    cases hi'
    cases hj'
    exact ⟨⟨hlt, hne⟩, hlt', hne'⟩
  result := ⟨⟨13⟩, ⟨13⟩, by simp [roles_eq, hx'.returnValue, hy'.returnValue], by decide, by decide⟩
  stackPointer := ⟨⟨14⟩, ⟨14⟩, by simp [roles_eq, hx'.stackPointer, hy'.stackPointer], by decide, by decide⟩
  link := ⟨⟨15⟩, ⟨15⟩, by simp [roles_eq, hx'.link, hy'.link], by decide, by decide⟩

theorem Standard.index? (h : x.Standard) {r : Register} (hr : r = Item.unused ∨ r = ⟨x.zero⟩) :
    ∃ i, r.index? = some i := by
  rcases hr with rfl | rfl
  · exact ⟨0, index?_unused⟩
  · obtain ⟨hlow, hhigh⟩ := h.zero
    have hlt : x.zero < 16 := Int64.lt_of_le_of_lt hhigh (by decide)
    exact ⟨_, if_pos ⟨hlow, hlt⟩⟩

/-- Emitted code does not write the zero register or register 0. -/
theorem Standard.not_written (h : x.Standard) (hd : x.Distinct) {r : Register}
    (hr : r = Item.unused ∨ r = ⟨x.zero⟩) : r.number ∉ x.written := by
  rcases hr with rfl | rfl
  · exact fun hm => absurd (h.writable hd _ hm).1 (by decide)
  · exact hd.zero

end Registers

theorem Pairing.realizes_conventions {a b : Config} (ha : a.validate = .ok ()) (hb : b.validate = .ok ())
    (hab : { a with registers := b.registers } = b) (hla : 8 ≤ a.registers.general.length)
    (hlb : 8 ≤ b.registers.general.length) (named : Prop) {worded : Prop} (hw : worded)
    (hruntime : worded → ∀ s ∈ [a.runtime.bufferLabel, a.runtime.topOfMemory, a.runtime.intToString,
      a.runtime.printString, a.runtime.readString, a.runtime.stringToInt],
      isIdentifier s.toList = true)
    (ha' : a.registers.Standard) (hb' : b.registers.Standard) :
    (Pairing.conventions ha hb hab hla hlb named worded hruntime).Realizes
      (Registers.correspondence (Config.distinct_of_validate ha) (Config.distinct_of_validate hb) ha' hb') := by
  have hx := Config.distinct_of_validate ha
  have hy := Config.distinct_of_validate hb
  have hwrites : ∀ {r s}, (r, s) ∈ a.registers.roles b.registers → ∃ i j, r.index? = some i
      ∧ s.index? = some j ∧ (Registers.correspondence hx hy ha' hb').pairs i j := by
    intro r s h
    obtain ⟨hr, hs⟩ := Registers.mem_written_of_mem_roles h
    obtain ⟨i, hi, -, -⟩ := Machine.index?_of_writable (ha'.writable hx _ hr)
    obtain ⟨j, hj, -, -⟩ := Machine.index?_of_writable (hb'.writable hy _ hs)
    exact ⟨i, j, hi, hj, r, s, h, hi, hj⟩
  refine ⟨hw, hwrites, fun {r s} h => ?_⟩
  rcases h with h | ⟨hr, hs⟩
  · obtain ⟨i, j, hi, hj, hij⟩ := hwrites h
    exact ⟨i, j, hi, hj, .inl hij⟩
  · obtain ⟨i, hi⟩ := ha'.index? hr
    obtain ⟨j, hj⟩ := hb'.index? hs
    refine ⟨i, j, hi, hj, .inr ⟨⟨(Machine.index?_toNat hi).2, ?_⟩, (Machine.index?_toNat hj).2, ?_⟩⟩
    · rintro j' ⟨r', s', h, hi', -⟩
      rw [Machine.index?_inj hi' hi] at h
      exact ha'.not_written hx hr (Registers.mem_written_of_mem_roles h).1
    · rintro i' ⟨r', s', h, -, hj'⟩
      rw [Machine.index?_inj hj' hj] at h
      exact hb'.not_written hy hs (Registers.mem_written_of_mem_roles h).2

/-! ### Runs -/

theorem Machine.ofImage_renamed {f : Renaming} {x y : Image}
    (h : ImageMirrors (MachineInstruction.Renamed f) x y) (rt : Runtime) (input : List UInt8) :
    (∃ e, ofImage x rt input = .error e ∧ ofImage y rt input = .error e) ∨
    ∃ m n, ofImage x rt input = .ok m ∧ ofImage y rt input = .ok n ∧ m.Renamed f n := by
  have hsize : x.size = y.size := Image.size_congr (fun addr => by
    have hcode := h.code addr
    generalize x.code[addr]? = u, y.code[addr]? = v at hcode ⊢
    cases hcode <;> rfl) h.data
  unfold ofImage
  rw [← hsize, ← h.data, ← h.entry]
  split
  · exact .inl ⟨_, rfl, rfl⟩
  · refine .inr ⟨_, _, rfl, rfl, rfl, h.code, fun hrs => ?_⟩
    obtain ⟨hr, hs⟩ := hrs.lt
    have hr' : _ < 16 := UInt8.lt_iff_toNat_lt.1 hr
    have hs' : _ < 16 := UInt8.lt_iff_toNat_lt.1 hs
    rw [reg?, reg?, Vector.getElem?_replicate, Vector.getElem?_replicate, if_pos hr', if_pos hs']

/-- The runs printed the same and ended alike: with the same error, or both because the text could
not be assembled. -/
def RunOutcome.Agrees (x y : RunOutcome) : Prop :=
  x.output = y.output ∧ (x.error = y.error ∨
    ∃ e e', x.error = some (.assembly e) ∧ y.error = some (.assembly e'))

theorem agrees_of_alike {f : Renaming} {a b : Config} (hrt : a.runtime = b.runtime) {s t : String}
    (h : Alike (ImageMirrors (MachineInstruction.Renamed f)) (assemble s a.runtime.symbols)
      (assemble t a.runtime.symbols)) (input : List UInt8) :
    (runAssembly a s input).Agrees (runAssembly b t input) := by
  unfold runAssembly assembleFor
  rw [← hrt]
  rcases h.cases with ⟨e, e', hx, hy⟩ | ⟨x, y, hx, hy, hxy⟩
  · rw [hx, hy]
    exact ⟨rfl, .inr ⟨e, e', rfl, rfl⟩⟩
  · rw [hx, hy]
    simp only [Except.mapError]
    rcases Machine.ofImage_renamed hxy a.runtime input with ⟨e, hx, hy⟩ | ⟨m, n, hx, hy, hmn⟩
    · rw [hx, hy]
      exact ⟨rfl, .inl rfl⟩
    · rw [hx, hy]
      have hrun := hmn.run
      simp only
      generalize m.run = u, n.run = v at hrun
      obtain ⟨trap, m'⟩ := u
      obtain ⟨trap', n'⟩ := v
      have hmachine : m'.Renamed f n' := hrun.machine
      have hout : n'.output = m'.output := by rw [← hmachine.rest]
      exact ⟨hout.symm, .inl (congrArg (Option.map RunError.trap) hrun.trap)⟩

/-- Output does not depend on the register convention. Of two accepted configurations that differ in
their registers only and have at least eight scratch registers each, a program gets the same error
from both compilations, or is compiled by both. If both conventions are those of the library, the
names of functions and classes are words, those of the library are identifiers and no name has a line
feed, then every input makes both runs print the same and end alike. -/
theorem conventions_change_nothing {a b : Config} (ha : a.validate = .ok ()) (hb : b.validate = .ok ())
    (hab : { a with registers := b.registers } = b) (hla : 8 ≤ a.registers.general.length)
    (hlb : 8 ≤ b.registers.general.length) (p : Program) :
    (∃ e, (compile a p).1 = .error e ∧ (compile b p).1 = .error e) ∨
    ∃ x y, (compile a p).1 = .ok x ∧ (compile b p).1 = .ok y ∧
      (a.registers.Standard → b.registers.Standard → OneLiners p.names →
        (∀ f ∈ p.functions, Emit.IsWord f.name ∧ Emit.IsWord f.className) →
        (∀ s ∈ [a.runtime.bufferLabel, a.runtime.topOfMemory, a.runtime.intToString,
          a.runtime.printString, a.runtime.readString, a.runtime.stringToInt],
          isIdentifier s.toList = true) →
        ∀ input, (runAssembly a x.assembly input).Agrees (runAssembly b y.assembly input)) := by
  rcases compile_mirrors (.conventions ha hb hab hla hlb False False False.elim) False.elim False.elim
    (p := p) with herror | ⟨x, y, hx, hy, -, -⟩
  · exact .inl herror
  · refine .inr ⟨x, y, hx, hy, fun ha' hb' hn hw hruntime input => ?_⟩
    -- the conditions on names are known only here, so the walk is taken once more with them
    rcases compile_mirrors (.conventions ha hb hab hla hlb True True fun _ => hruntime) (fun _ => hn)
      (fun _ => hw) with ⟨e, he, -⟩ | ⟨x', y', hx', hy', hxy, -⟩
    · rw [hx] at he
      cases he
    · rw [hx] at hx'
      rw [hy] at hy'
      cases hx'
      cases hy'
      have hreal := Pairing.realizes_conventions ha hb hab hla hlb True trivial (fun _ => hruntime) ha' hb'
      exact agrees_of_alike (by rw [← hab]) (hreal.assemble hxy trivial a.runtime.symbols) input

def printsSeven : Program :=
  ⟨[], [{ name := "main", className := "", isConstructor := false, params := [], returns := .void,
          body := [.write (.int 7)] }]⟩

def Registers.reversed : Registers := { general := [12, 11, 10, 9, 8, 7, 6, 5, 4, 3, 2, 1] }

theorem conventions_change_nothing_reversed : ∃ x y, (compile {} printsSeven).1 = .ok x
    ∧ (compile { registers := .reversed } printsSeven).1 = .ok y ∧ ∀ input,
      (runAssembly {} x.assembly input).Agrees (runAssembly { registers := .reversed } y.assembly input) := by
  have hstock : Registers.Standard {} := ⟨rfl, rfl, rfl, by decide, by decide⟩
  have hreversed : Registers.Standard .reversed := ⟨rfl, rfl, rfl, by decide, by decide⟩
  obtain ⟨c, hc, -⟩ := compile_of_code? {} printsSeven (fun _ => true) (by cbv)
  rcases conventions_change_nothing (a := {}) (b := { registers := .reversed }) (by decide) (by decide)
    rfl (by decide) (by decide) printsSeven with ⟨e, he, -⟩ | ⟨x, y, hx, hy, hrun⟩
  · rw [hc] at he
    cases he
  · exact ⟨x, y, hx, hy, hrun hstock hreversed (by decide) (by decide) (by decide)⟩

/-- A small machine with the stock registers. -/
def Config.usual : Config := { runtime := { memorySize := 128 } }

/-- The same machine with another stack pointer. -/
def Config.shifted : Config :=
  { Config.usual with
    registers := { general := [1, 2, 3, 4, 5, 6, 7, 8, 9, 10, 11, 14], stackPointer := 12 } }

def printsSevenCode (sp : Register) : Code :=
  [.comment "generated by moonc", .plain .entry, .plain (.named .addi sp ⟨0⟩ "topaddr"),
    .comment "function main() => void", .comment "frame 0", .comment "write(7)",
    .plain (.imm .addi ⟨1⟩ ⟨0⟩ 7), .plain (.imm .addi sp sp 0), .plain (.sw (-8) sp ⟨1⟩),
    .plain (.named .addi ⟨1⟩ ⟨0⟩ "buf"), .plain (.sw (-12) sp ⟨1⟩), .plain (.jl ⟨15⟩ "intstr"),
    .plain (.sw (-8) sp ⟨13⟩), .plain (.jl ⟨15⟩ "putstr"), .plain (.imm .addi sp sp 0),
    .plain (.imm .addi ⟨1⟩ ⟨0⟩ 10), .plain (.reg1 .putc ⟨1⟩), .labeled "end_main1" (.bare .nop),
    .plain (.bare .hlt), .blank, .comment "data", .labeled "buf" (.reserve 20)]

def runImage (config : Config) (assembled : Except AssemblyError Image) (input : List UInt8) :
    RunOutcome :=
  match assembled with
  | .error e => ⟨some (.assembly e), #[], []⟩
  | .ok image =>
    match Machine.ofImage image config.runtime input with
    | .error cause => ⟨some (.tooLarge cause), #[], []⟩
    | .ok m =>
      match m.run with
      | (trap, m) => ⟨trap.map .trap, m.output, Machine.runLog (trap, m)⟩

theorem runAssembly_eq (config : Config) (text : String) (input : List UInt8) :
    runAssembly config text input
      = runImage config (assemble text config.runtime.symbols) input := by
  unfold runAssembly assembleFor
  cases assemble text config.runtime.symbols with
  | error e => rfl
  | ok image => rfl

def Assembly.assembleLines (source : List SourceLine) (symbols : List (String × Int32)) :
    Except AssemblyError Image := do
  let labels ← collectLabels 0 [] source
  let pass ← Pass.lines ⟨labels, symbols⟩ source {}
  return { pass.image with labels := labels }

theorem Code.assemble_text {c : Code} (hc : ∀ l ∈ c, l.Readable) (symbols : List (String × Int32)) :
    assemble c.text symbols = assembleLines (c.sources 1) symbols := by
  rw [assemble, parseLines_text hc]
  rfl

/-- The library looks for its parameters below register 14, whatever the stack pointer is. -/
theorem shifted_stackPointer_traps : Config.usual.validate = .ok () ∧ Config.shifted.validate = .ok ()
    ∧ { Config.usual with registers := Config.shifted.registers } = Config.shifted
    ∧ 8 ≤ Config.usual.registers.general.length ∧ 8 ≤ Config.shifted.registers.general.length
    ∧ ∃ x y, (compile .usual printsSeven).1 = .ok x ∧ (compile .shifted printsSeven).1 = .ok y
      ∧ (runAssembly .usual x.assembly []).output = #[55, 10]
      ∧ (runAssembly .usual x.assembly []).error = none
      ∧ (runAssembly .shifted y.assembly []).error = some (.trap (.memory (-8) 132)) := by
  refine ⟨by decide, by decide, rfl, by decide, by decide, ?_⟩
  obtain ⟨x, hx, hcode⟩ := compile_of_code? .usual printsSeven (· == printsSevenCode ⟨14⟩) (by cbv)
  obtain ⟨y, hy, hcode'⟩ := compile_of_code? .shifted printsSeven (· == printsSevenCode ⟨12⟩) (by cbv)
  refine ⟨x, y, hx, hy, ?_⟩
  rw [Compiled.assembly, Compiled.assembly, eq_of_beq hcode, eq_of_beq hcode', runAssembly_eq,
    runAssembly_eq, Code.assemble_text (by decide), Code.assemble_text (by decide)]
  decide +kernel

end MoonBackend
