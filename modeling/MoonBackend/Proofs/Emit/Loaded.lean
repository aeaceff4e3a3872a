import MoonBackend.Proofs.Emit.Assembling
import MoonBackend.Proofs.Integer.Assembled

/-!
# Programs in the memory of the machine

The machine takes an image only if it fits into its memory. The code of a program that it takes lies
below the entries of the library, so it stands in the image line by line.
-/

namespace MoonBackend.Emit

open Text Code Assembly

theorem exists_covering {code : Code} {n : ℕ} (h : n < Code.size code) :
    ∃ before l after, code = before ++ l :: after ∧ Code.size before ≤ n
      ∧ n < Code.size before + l.size := by
  induction code generalizing n with
  | nil => exact absurd h (Nat.not_lt_zero n)
  | cons l code ih =>
    rcases Nat.lt_or_ge n l.size with hn | hn
    · exact ⟨[], l, code, rfl, Nat.zero_le n, by simpa using hn⟩
    · rw [Code.size_cons] at h
      obtain ⟨before, l', after, rfl, h1, h2⟩ := ih (n := n - l.size) (by omega)
      refine ⟨l :: before, l', after, rfl, ?_, ?_⟩ <;> rw [Code.size_cons] <;> omega

/-- A program of different labels whose operands are known is assembled and taken by the machine, if
its code fits into the memory. -/
theorem exists_loaded {p : Program} {c : Compiled} (h : (compile {} p).1 = .ok c)
    (hw : ∀ f ∈ p.functions, IsWord f.name ∧ IsWord f.className) (hn : OneLiners p.names)
    (hlabels : (labelNames c.code).Nodup)
    (hknown : ∀ l ∈ c.code, l.Known (c.code.names (Runtime.symbols {})))
    (hsize : Code.size c.code ≤ 65536) (input : List UInt8) :
    ∃ image m, assembleFor {} c.assembly = .ok image ∧ Machine.ofImage image {} input = .ok m := by
  have hread := readable_of_compile h hw hn
  obtain ⟨image, himage⟩ := exists_assemble hread isIdentifier_symbols
    (by rw [map_fst_labelsFrom]; exact hlabels) hknown (size_of_compile h hn) (entries_of_compile h hn)
  obtain ⟨hinside, hblank⟩ := image_of_assemble hread isIdentifier_symbols himage (by omega)
  obtain ⟨-, hspan⟩ := Image.size_bounds (by omega) hinside hblank.size
  refine ⟨image, _, ?_, if_neg ?_⟩
  · rw [assembleFor, Compiled.assembly,
      show (Config.runtime {}).symbols = Runtime.symbols {} from rfl, himage]
    rfl
  · rw [Int32.lt_iff_toInt_lt]
    have : (Runtime.memorySize {}).toInt32.toInt = 65536 := rfl
    omega

section

variable {p : Program} {c : Compiled} {image : Image} {input : List UInt8} {m : Machine}
  (h : (compile {} p).1 = .ok c) (hw : ∀ f ∈ p.functions, IsWord f.name ∧ IsWord f.className)
  (hn : OneLiners p.names) (ha : assembleFor {} c.assembly = .ok image)
  (hm : Machine.ofImage image {} input = .ok m)

include h hn in
theorem exists_front : ∃ front, c.code = front ++ [.labeled "buf" (.reserve 20)]
    ∧ ∀ l ∈ front, 0 < l.size → ∃ i, l.item? = some (.instruction i) := by
  obtain ⟨entries, others, hparts, hcode⟩ := parts_of_compile h
  have hpart : ∀ part ∈ entries ++ others, ∀ l ∈ part.2, 0 < l.size →
      ∃ i, l.item? = some (.instruction i) := by
    intro part hp l hl hsize
    obtain ⟨f, hr⟩ := hparts.routine part hp
    obtain ⟨scope, exit, hreg⟩ := hr.regular h hn
    cases l with
    | blank | comment => exact absurd hsize (Nat.lt_irrefl 0)
    | plain item | labeled _ item =>
      obtain ⟨i, rfl⟩ := hreg.instructions _ hl item rfl
      exact ⟨i, rfl⟩
  refine ⟨.comment "generated by moonc" :: plain [.entry, .named .addi ⟨14⟩ ⟨0⟩ "topaddr"]
    ++ (entries.flatMap Prod.snd ++ (plain [.bare .hlt]
      ++ (others.flatMap (fun part => .blank :: part.2) ++ [.blank, .comment "data"]))),
    by rw [hcode, assembled_eq]; simp, fun l hl hsize => ?_⟩
  simp only [List.mem_append, List.mem_flatMap, List.mem_cons, List.not_mem_nil, or_false, plain,
    List.map_cons, List.map_nil] at hl
  rcases hl with (rfl | rfl | rfl) | ⟨part, hp, hl⟩ | rfl | ⟨part, hp, rfl | hl⟩ | rfl | rfl
  · exact absurd hsize (Nat.lt_irrefl 0)
  · exact absurd hsize (Nat.lt_irrefl 0)
  · exact ⟨_, rfl⟩
  · exact hpart part (List.mem_append_left _ hp) l hl hsize
  · exact ⟨_, rfl⟩
  · exact absurd hsize (Nat.lt_irrefl 0)
  · exact hpart part (List.mem_append_right _ hp) l hl hsize
  · exact absurd hsize (Nat.lt_irrefl 0)
  · exact absurd hsize (Nat.lt_irrefl 0)

include hm in
theorem size_image_le : image.size.toInt ≤ 65536 := by
  unfold Machine.ofImage at hm
  split at hm
  · cases hm
  · rename_i hlt
    rw [Int32.lt_iff_toInt_lt, Int.not_lt] at hlt
    exact hlt

include h hw hn ha hm

theorem size_le_of_loaded : Code.size c.code ≤ 65536 := by
  by_contra! hlt
  have hread := readable_of_compile h hw hn
  have hassemble := assemble_of_assembleFor ha
  have himage := size_image_le hm
  obtain ⟨front, hcode, hfront⟩ := exists_front h hn
  rcases Nat.lt_or_ge (Code.size c.code) (2 ^ 31) with hsmall | hbig
  · -- the buffer ends the data of the image
    obtain ⟨hinside, hblank⟩ := image_of_assemble hread isIdentifier_symbols hassemble (by omega)
    obtain ⟨hspan, -⟩ := Image.size_bounds hsmall hinside hblank.size
    rw [Compiled.assembly, hcode] at hassemble
    rw [hcode] at hread hsmall hlt
    have hend := size_data_of_assemble hread isIdentifier_symbols hassemble (by decide) hsmall
    omega
  · -- somewhere behind the memory stands an instruction
    have hsize : Code.size c.code = Code.size front + 20 := by
      rw [hcode, Code.size_append]
      rfl
    obtain ⟨before, l, after, rfl, hle, hcover⟩ := @exists_covering front 65540 (by omega)
    obtain ⟨i, hi⟩ := hfront l (by simp) (by omega)
    have hfour : l.size = 4 := by
      cases l <;> cases hi <;> rfl
    have hmem := ((carries_of_assemble hread isIdentifier_symbols hassemble).1 before l
      (after ++ [.labeled "buf" (.reserve 20)]) i (by rw [hcode]; simp) hi).2
    obtain ⟨mi, hat⟩ := Std.TreeMap.mem_iff_isSome_getElem?.1 hmem |> Option.isSome_iff_exists.1
    have hspan := Image.le_foldl_size_of_mem
      (Std.TreeMap.mem_toList_iff_getElem?_eq_some.2 hat) (Int32.ofNat image.data.size)
    have hnext : (Int32.ofNat (Code.size before) + 4).toInt = Code.size before + 4 := by
      rw [show (4 : Int32) = Int32.ofNat 4 from rfl, ← Int32.ofNat_add,
        Int32.toInt_ofNat_of_lt (by omega)]
      push_cast
      rfl
    rw [Image.size, Std.TreeMap.foldl_eq_foldl_toList] at himage
    rw [hnext] at hspan
    omega

/-- A program that the machine takes stands in its image, line by line. -/
theorem holds_of_loaded :
    Site.Holds ⟨image, {}, c.code.names (Runtime.symbols {})⟩ 0 c.code := by
  have hsize := size_le_of_loaded h hw hn ha hm
  exact holds_of_assemble (readable_of_compile h hw hn) isIdentifier_symbols
    (assemble_of_assembleFor ha) (by omega) fun x hx => Integer.routine?_eq_none (by omega)

end

end MoonBackend.Emit
