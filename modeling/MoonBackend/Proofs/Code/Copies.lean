import MoonBackend.Proofs.Code.Loads

/-!
# Copying words

Words that are stored one below the other, starting from any address: what the memory is afterwards,
and the execution of the code that moves them. The words of a value are read before any of them can
be overwritten as long as they do not overlap their target.
-/

namespace MoonBackend

open Machine Code

namespace Memory

variable {m m' m'' : Memory} {x y : ℤ} {n : ℕ} {v : Int32} {ws : List Int32}

/-- Some words from a position downwards. -/
def wordsAt (m : Memory) (x : ℤ) (n : ℕ) : List Int32 :=
  (List.range n).map fun i : ℕ => m.word (x - 4 * i)

@[simp] theorem length_wordsAt (m : Memory) (x : ℤ) (n : ℕ) : (m.wordsAt x n).length = n := by
  simp [wordsAt]

theorem wordsAt_succ (m : Memory) (x : ℤ) (n : ℕ) :
    m.wordsAt x (n + 1) = m.wordsAt x n ++ [m.word (x - 4 * n)] := by
  simp [wordsAt, List.range_succ]

@[simp] theorem wordsAt_one (m : Memory) (x : ℤ) : m.wordsAt x 1 = [m.word x] := by
  simp [wordsAt]

theorem wordsAt_congr (h : ∀ y, x - 4 * n + 4 ≤ y → y < x + 4 → m'.byte y = m.byte y) :
    m'.wordsAt x n = m.wordsAt x n :=
  List.map_congr_left fun i hi => word_congr fun y hy hy' =>
    h y (by have := List.mem_range.1 hi; omega) (by omega)

/-- Some words were put at a position and below, and every other byte is as it was. -/
structure Puts (m m' : Memory) (x : ℤ) (ws : List Int32) : Prop where
  size : m'.size = m.size
  words : m'.wordsAt x ws.length = ws
  frame : ∀ y, 0 ≤ y → y < x - 4 * ws.length + 4 ∨ x + 4 ≤ y → m'.byte y = m.byte y

namespace Puts

theorem nil (m : Memory) (x : ℤ) : Puts m m x [] := ⟨rfl, rfl, fun _ _ _ => rfl⟩

theorem snoc (h : Puts m m' x ws) (hin : m'.Inside (x - 4 * ws.length) 4) (v : Int32) :
    Puts m (m'.setWord (x - 4 * ws.length) v) x (ws ++ [v]) where
  size := (size_setWord ..).trans h.size
  words := by
    have hbelow : (m'.setWord (x - 4 * ws.length) v).wordsAt x ws.length = ws := by
      refine (wordsAt_congr fun y hy hy' => ?_).trans h.words
      have := hin.nonneg
      exact byte_setWord_of_ne v hin (by omega) (by omega)
    rw [List.length_append, List.length_singleton, wordsAt_succ, hbelow, word_setWord_self v hin]
  frame y hy hout := by
    rw [List.length_append, List.length_singleton] at hout
    push_cast at hout
    rw [byte_setWord_of_ne v hin hy (by omega)]
    exact h.frame y hy (by omega)

theorem single (hin : m.Inside x 4) (v : Int32) : Puts m (m.setWord x v) x [v] := by
  have hput := (nil m x).snoc (by simpa using hin) v
  simpa using hput

end Puts

end Memory

/-- The words of the value at a place, in a frame at a position. -/
def placeWords (mem : Memory) (x : ℤ) (n : ℕ) : Place → List Int32
  | .immediate v => [v.toInt32]
  | .slot off => mem.wordsAt (x + off.toInt) n

namespace Emit

open Memory

variable {c : Context} {site : Site} {m : Machine} {a : ℕ} {r : Register}

/-- The offsets of some words from a first one downwards do not wrap around. -/
def Descends (off : Int64) (n : ℕ) : Prop :=
  ∀ i < n, (off - Int64.ofNat i * 4).toInt = off.toInt - 4 * i

def copyWords (r : Register) (dst src : Location) (n : ℕ) : Code :=
  plain <| (List.range n).flatMap fun i =>
    [Item.lw r (src.off - Int64.ofNat i * 4) src.base,
      .sw (dst.off - Int64.ofNat i * 4) dst.base r]

theorem copyWords_succ (r : Register) (dst src : Location) (n : ℕ) :
    copyWords r dst src (n + 1) = copyWords r dst src n
      ++ plain [.lw r (src.off - Int64.ofNat n * 4) src.base,
        .sw (dst.off - Int64.ofNat n * 4) dst.base r] := by
  simp [copyWords, plain, List.range_succ]

/-- Words are moved to a place that they do not overlap. -/
theorem exec_copyWords {dst src : Location} {xd xs : ℤ} (hr : r.Writable) (hrd : r ≠ dst.base)
    (hrs : r ≠ src.base) {n : ℕ} (hon : m.On site a) (hcode : site.Holds a (copyWords r dst src n))
    (hd : m.get dst.base = Int32.ofInt xd) (hs : m.get src.base = Int32.ofInt xs)
    (hoffd : Descends dst.off n) (hoffs : Descends src.off n)
    (hind : ∀ i < n, m.memory.Inside (xd + dst.off.toInt - 4 * (i : ℕ)) 4)
    (hins : ∀ i < n, m.memory.Inside (xs + src.off.toInt - 4 * (i : ℕ)) 4)
    (hapart : xd + dst.off.toInt + 4 ≤ xs + src.off.toInt - 4 * n + 4
      ∨ xs + src.off.toInt + 4 ≤ xd + dst.off.toInt - 4 * n + 4) :
    ∃ mem m', Reaches site [r] m (a + Code.size (copyWords r dst src n)) mem m'
      ∧ Puts m.memory mem (xd + dst.off.toInt) (m.memory.wordsAt (xs + src.off.toInt) n) := by
  induction n with
  | zero => exact ⟨m.memory, m, .of_computes (.refl hon), .nil _ _⟩
  | succ n ih =>
    rw [copyWords_succ, Site.holds_append] at hcode
    obtain ⟨hbefore, hlast⟩ := hcode
    simp only [plain, List.map, Site.holds_plain, Site.holds_nil, and_true] at hlast
    obtain ⟨hlw, hsw⟩ := hlast
    obtain ⟨mem, m₁, hreach, hputs⟩ := ih hbefore (fun i hi => hoffd i (by omega))
      (fun i hi => hoffs i (by omega)) (fun i hi => hind i (by omega))
      (fun i hi => hins i (by omega)) (by omega)
    have hlen := length_wordsAt m.memory (xs + src.off.toInt) n
    have hload := hins n (by omega)
    have hstore := (hind n (by omega)).of_size hputs.size
    have haddr : xs + (src.off - Int64.ofNat n * 4).toInt = xs + src.off.toInt - 4 * n := by
      rw [hoffs n (by omega)]
      omega
    have haddr' : xd + (dst.off - Int64.ofNat n * 4).toInt = xd + dst.off.toInt - 4 * n := by
      rw [hoffd n (by omega)]
      omega
    -- the next word has not been overwritten
    have hword : mem.word (xs + src.off.toInt - 4 * n)
        = m.memory.word (xs + src.off.toInt - 4 * n) := by
      have := hload.nonneg
      exact word_congr fun y hy hy' => hputs.frame y (by omega) (by rw [hlen]; omega)
    have hs₁ := (hreach.get src.base (by simpa using hrs.symm)).trans hs
    have e1 := hreach.on.exec_lw hlw hs₁ (by
      rw [haddr, hreach.memory]
      exact hload.of_size hputs.size)
    rw [haddr, hreach.memory, hword] at e1
    have c1 := hreach.before (Computes.put (w := [r]) hreach.on e1 (by simp))
    have hd₁ := (c1.get dst.base (by simpa using hrd.symm)).trans hd
    have e2 := c1.on.exec_sw hsw hd₁ (by rw [haddr', c1.memory]; exact hstore)
    rw [haddr', get_put_self hr] at e2
    have c2 := c1.trans (Reaches.poke c1.on e2)
    rw [c1.memory] at c2
    have hsize : a + Code.size (copyWords r dst src (n + 1))
        = a + Code.size (copyWords r dst src n) + 4 + 4 := by
      rw [copyWords_succ, Code.size_append]
      simp only [plain, List.map, Code.size_cons, Code.size_nil, Line.size, Item.size_lw,
        Item.size_sw]
      omega
    refine ⟨_, _, hsize ▸ c2, ?_⟩
    rw [wordsAt_succ]
    have hsnoc := hputs.snoc (by rw [hlen]; exact hstore)
      (m.memory.word (xs + src.off.toInt - 4 * n))
    rwa [hlen] at hsnoc

end Emit

end MoonBackend
