import MoonBackend.Proofs.Emit.Monad

/-!
# The register pool under emission

A pool is sound when its free and its held registers share none, have no repetitions and make up
the registers that it manages. Taking registers and giving them back in reverse order restores a
sound pool exactly, so a step that works with scratch registers leaves the pool as it found it.
-/

namespace MoonBackend

namespace RegisterPool

/-- Free and held registers partition the registers of the pool. -/
structure Sound (p : RegisterPool) : Prop where
  nodup : (p.free ++ p.held).Nodup
  mem_general : ∀ r, r ∈ p.general ↔ r ∈ p.free ∨ r ∈ p.held

def taken (p : RegisterPool) (n : Nat) : RegisterPool :=
  { p with free := p.free.drop n, held := (p.free.take n).reverse ++ p.held }

theorem Sound.perm {p q : RegisterPool} (h : p.Sound) (hg : q.general = p.general)
    (hp : (q.free ++ q.held).Perm (p.free ++ p.held)) : q.Sound := by
  constructor
  · exact hp.symm.nodup h.nodup
  · intro r
    have hm := hp.mem_iff (a := r)
    simp only [List.mem_append] at hm
    rw [hg, h.mem_general r]
    exact hm.symm

theorem Sound.acquire {p : RegisterPool} {r : Register} {rest : List Register} (h : p.Sound)
    (hf : p.free = r :: rest) :
    p.acquire = .ok (r, { p with free := rest, held := r :: p.held }) := by
  have hn := h.nodup
  rw [hf] at hn
  have hr : r ∉ p.held := by
    intro hm
    exact (List.nodup_cons.1 hn).1 (List.mem_append_right _ hm)
  rw [acquire_eq_ok_iff]
  exact ⟨rest, hf, by rw [List.insert_of_not_mem hr]⟩

theorem Sound.of_acquire {p : RegisterPool} {r : Register} {rest : List Register} (h : p.Sound)
    (hf : p.free = r :: rest) : Sound { p with free := rest, held := r :: p.held } := by
  refine h.perm rfl ?_
  rw [hf]
  exact List.perm_middle

theorem Sound.release {p : RegisterPool} {r : Register} {held : List Register} (h : p.Sound)
    (hh : p.held = r :: held) :
    p.release r = .ok { p with free := r :: p.free, held := held } := by
  have hm : r ∈ p.held := by rw [hh]; exact List.mem_cons_self
  rw [release_eq_ok_iff]
  refine ⟨(h.mem_general r).2 (.inr hm), hm, ?_⟩
  rw [hh, List.erase_cons_head]

theorem Sound.of_release {p : RegisterPool} {r : Register} {held : List Register} (h : p.Sound)
    (hh : p.held = r :: held) : Sound { p with free := r :: p.free, held := held } := by
  refine h.perm rfl ?_
  rw [hh]
  exact List.perm_middle.symm

theorem Sound.of_erase {p : RegisterPool} {r : Register} (h : p.Sound) (hr : r ∈ p.held) :
    Sound { p with free := r :: p.free, held := p.held.erase r } := by
  refine h.perm rfl ?_
  exact List.perm_middle.symm.trans (List.Perm.append_left _ (List.perm_cons_erase hr).symm)

theorem Sound.acquireMany {p : RegisterPool} (h : p.Sound) (n : Nat) (hn : n ≤ p.free.length) :
    p.acquireMany n = (.ok (p.free.take n), p.taken n) := by
  induction n generalizing p with
  | zero => simp [RegisterPool.acquireMany, taken]
  | succ n ih =>
    cases hf : p.free with
    | nil => rw [hf] at hn; simp at hn
    | cons r rest =>
      have hs := h.of_acquire hf
      have hlen : n ≤ rest.length := by rw [hf] at hn; simpa using hn
      simp only [RegisterPool.acquireMany, h.acquire hf, ih hs hlen, taken, hf, List.take_succ_cons,
        List.drop_succ_cons, List.reverse_cons, List.append_assoc, List.singleton_append]

theorem Sound.taken {p : RegisterPool} (h : p.Sound) (n : Nat) : (p.taken n).Sound := by
  refine h.perm rfl ?_
  have hd : (p.free.drop n ++ ((p.free.take n).reverse ++ p.held)).Perm
      (p.free.drop n ++ (p.free.take n ++ p.held)) :=
    (List.Perm.append_right p.held (List.reverse_perm (p.free.take n))).append_left _
  refine hd.trans ?_
  rw [← List.append_assoc]
  refine List.Perm.append_right p.held ?_
  refine List.perm_append_comm.trans ?_
  rw [List.take_append_drop]

theorem Sound.releaseMany {p : RegisterPool} (h : p.Sound) (rs held : List Register)
    (hh : p.held = rs ++ held) :
    p.releaseMany rs = (.ok (), { p with free := rs.reverse ++ p.free, held := held }) := by
  induction rs generalizing p with
  | nil =>
    simp only [List.nil_append] at hh
    simp [RegisterPool.releaseMany, ← hh]
  | cons r rs ih =>
    have hh' : p.held = r :: (rs ++ held) := by simpa using hh
    have hs := h.of_release hh'
    have hr := h.release hh'
    simp only [RegisterPool.releaseMany, hr, ih hs rfl, List.reverse_cons, List.append_assoc,
      List.singleton_append]

theorem Sound.releaseMany_taken {p : RegisterPool} (h : p.Sound) (n : Nat) :
    (p.taken n).releaseMany (p.free.take n).reverse = (.ok (), p) := by
  have hr := (h.taken n).releaseMany (p.free.take n).reverse p.held rfl
  rw [hr]
  simp [RegisterPool.taken]

/-- A sound pool whose registers are among those of the stock machine. -/
structure Stock (p : RegisterPool) : Prop where
  sound : p.Sound
  low : ∀ r ∈ p.general, 0 < r.number ∧ r.number < 13

theorem Stock.of_mem_free {p : RegisterPool} {r : Register} (h : p.Stock) (hr : r ∈ p.free) :
    0 < r.number ∧ r.number < 13 := h.low r ((h.sound.mem_general r).2 (.inl hr))

theorem acquireMany_error (p : RegisterPool) {n : Nat} (hn : p.free.length < n) :
    ∃ f q, p.acquireMany n = (.error f, q) := by
  induction n generalizing p with
  | zero => omega
  | succ n ih =>
    cases hf : p.free with
    | nil => exact ⟨_, _, by simp only [RegisterPool.acquireMany, acquire, hf]; rfl⟩
    | cons r rest =>
      obtain ⟨f, q, hrest⟩ := ih { p with free := rest, held := p.held.insert r } (by
        rw [hf] at hn
        simpa using hn)
      exact ⟨f, q, by simp only [RegisterPool.acquireMany, acquire, hf, hrest]⟩

theorem sound_ofNumbers {numbers : List Int64} (h : numbers.Nodup) : (ofNumbers numbers).Sound := by
  have hm : (numbers.map Register.mk).Nodup :=
    List.pairwise_map.2 (h.imp fun hne he => hne (by simpa using he))
  constructor
  · simpa [ofNumbers] using hm
  · intro r
    simp [ofNumbers, List.mem_eraseDups]

theorem general_ofNumbers {numbers : List Int64} (h : numbers.Nodup) :
    (ofNumbers numbers).general = numbers.map Register.mk := by
  have hm : (numbers.map Register.mk).Nodup :=
    List.pairwise_map.2 (h.imp fun hne he => hne (by simpa using he))
  show (numbers.map Register.mk).eraseDups = _
  generalize numbers.map Register.mk = rs at hm
  induction rs with
  | nil => rfl
  | cons r rs ih =>
    obtain ⟨hr, hrs⟩ := List.nodup_cons.1 hm
    have hfilter : rs.filter (fun b => !b == r) = rs :=
      List.filter_eq_self.2 fun b hb => by
        have : b ≠ r := fun heq => hr (heq ▸ hb)
        simpa using this
    rw [List.eraseDups_cons, hfilter, ih hrs]

end RegisterPool

namespace Emit

variable {α : Type}

/-- A body that leaves the pool alone runs with the first free registers, and the pool is restored
after it. -/
theorem eval_withRegisters_of_sound {n : Nat} {body : List Register → Emit α} {c : Context}
    {s s' : Counts} {result : Except Fault α} (hs : s.pool.Sound) (hn : n ≤ s.pool.free.length)
    (hb : eval (body (s.pool.free.take n)) c { s with pool := s.pool.taken n } = (result, s'))
    (hp : s'.pool = s.pool.taken n) :
    eval (withRegisters n body) c s = (result, { s' with pool := s.pool }) := by
  rw [eval_withRegisters, hs.acquireMany n hn]
  simp only
  rw [hb]
  simp only [hp]
  rw [hs.releaseMany_taken n]

theorem eval_withRegister_of_sound {body : Register → Emit α} {c : Context} {s s' : Counts}
    {r : Register} {rest : List Register} {result : Except Fault α} (hs : s.pool.Sound)
    (hf : s.pool.free = r :: rest)
    (hb : eval (body r) c { s with pool := s.pool.taken 1 } = (result, s'))
    (hp : s'.pool = s.pool.taken 1) :
    eval (withRegister body) c s = (result, { s' with pool := s.pool }) := by
  refine eval_withRegisters_of_sound hs (by rw [hf]; simp) ?_ hp
  rw [hf]
  exact hb

/-- A body that changes no counts, whatever they are, leaves them as they were. -/
theorem eval_withRegister_of_const {body : Register → Emit α} {c : Context} {s : Counts}
    {r : Register} {rest : List Register} {result : Except Fault α} (hs : s.pool.Sound)
    (hf : s.pool.free = r :: rest) (hb : ∀ t, eval (body r) c t = (result, t)) :
    eval (withRegister body) c s = (result, s) := by
  rw [eval_withRegister_of_sound hs hf (hb _) rfl]

end Emit

end MoonBackend
