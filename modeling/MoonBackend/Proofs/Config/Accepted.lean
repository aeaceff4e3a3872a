import MoonBackend.Proofs.Layout.Exact

/-!
# Accepted configurations

What a configuration that passes its checks is known for: sizes that belong together, general
registers that exist, differ and are not reserved, and a buffer that is not empty.
-/

namespace MoonBackend

theorem of_guard {ε α : Type} {q : Prop} [Decidable q] {e : ε} {k : Unit → Except ε α} {a : α}
    (h : (if q then throw e >>= k else k ()) = .ok a) : ¬ q ∧ k () = .ok a := by
  split at h
  · cases h
  · exact ⟨‹_›, h⟩

/-- What the checks of a configuration say. -/
structure Config.Accepted (c : Config) : Prop where
  sizes : c.sizes.Proper
  reserved : (c.registers.reserved.map Prod.fst).Nodup
  general : c.registers.checkGeneral [] c.registers.general = .ok ()
  /-- The buffer has room for the end of a text. -/
  buffer : 0 < c.runtime.bufferSize

theorem Config.accepted_of_validate {c : Config} (h : c.validate = .ok ()) : c.Accepted := by
  unfold Config.validate at h
  dsimp only at h
  obtain ⟨hword, h⟩ := of_guard h
  obtain ⟨hboolean, h⟩ := of_guard h
  obtain ⟨-, h⟩ := of_guard h
  obtain ⟨hreserved, h⟩ := of_guard h
  obtain ⟨u, hcheck, h⟩ := except_bind_eq_ok.1 h
  obtain ⟨hbuffer, -⟩ := of_guard h
  simp only [Bool.or_eq_true, decide_eq_true_eq, bne_iff_ne, ne_eq, not_or, not_not] at hword
  exact ⟨⟨Int64.not_le.1 hword.1, hword.2, Int64.not_le.1 hboolean⟩, by simpa using hreserved, hcheck,
    Int64.not_le.1 hbuffer⟩

theorem Config.proper_of_validate {c : Config} (h : c.validate = .ok ()) : c.sizes.Proper :=
  (accepted_of_validate h).sizes

theorem Registers.nodup_of_checkGeneral {regs : Registers} {rs seen : List Int64}
    (h : regs.checkGeneral seen rs = .ok ()) : rs.Nodup ∧ ∀ r ∈ rs, r ∉ seen := by
  induction rs generalizing seen with
  | nil => exact ⟨List.nodup_nil, fun _ hr => (List.not_mem_nil hr).elim⟩
  | cons r rs ih =>
    rw [checkGeneral] at h
    split at h
    · cases h
    · split at h
      · cases h
      · split at h
        · cases h
        · rename_i hseen
          obtain ⟨hnodup, hfresh⟩ := ih h
          have hr : r ∉ seen := by simpa using hseen
          refine ⟨List.nodup_cons.2 ⟨fun hm => hfresh r hm List.mem_cons_self, hnodup⟩, ?_⟩
          intro x hx
          rcases List.mem_cons.1 hx with rfl | hx
          · exact hr
          · exact fun hm => hfresh x hx (List.mem_cons_of_mem _ hm)

theorem Registers.of_checkGeneral {regs : Registers} {rs seen : List Int64}
    (h : regs.checkGeneral seen rs = .ok ()) :
    ∀ r ∈ rs, (0 ≤ r ∧ r ≤ 15) ∧ r ∉ regs.reserved.map Prod.fst := by
  induction rs generalizing seen with
  | nil => exact fun _ hr => (List.not_mem_nil hr).elim
  | cons r rs ih =>
    rw [checkGeneral] at h
    split at h
    · cases h
    · rename_i hrange
      split at h
      · cases h
      · rename_i hlookup
        split at h
        · cases h
        · refine List.forall_mem_cons.2 ⟨⟨?_, fun hm => ?_⟩, ih h⟩
          · simpa [Int64.not_lt] using hrange
          · obtain ⟨⟨x, role⟩, hx, rfl⟩ := List.mem_map.1 hm
            have := List.lookup_eq_none_iff.1 hlookup (x, role) hx
            simp at this

theorem Config.nodup_general_of_validate {c : Config} (h : c.validate = .ok ()) :
    c.registers.general.Nodup :=
  (Registers.nodup_of_checkGeneral (accepted_of_validate h).general).1

end MoonBackend
