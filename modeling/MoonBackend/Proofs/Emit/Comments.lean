import MoonBackend.Proofs.Emit.Lockstep
import MoonBackend.Proofs.Emit.Written

/-!
# Comments never change the program

With and without comments emission does the same in lockstep, so the code is the same but for its
comments. A comment on one line is an idle line of the text, so the assembler makes the same image.
-/

namespace MoonBackend

open Text Assembly Emit

/-! ### Configurations that differ in comments -/

def Config.commenting (config : Config) (wanted : Bool) : Config :=
  { config with emit := { config.emit with comments := wanted } }

/-- With and without comments every register stands for itself, and both pools are the same. -/
def Pairing.commenting (config : Config) (wanted : Bool) (named : Prop) :
    Pairing config (config.commenting wanted) where
  reads := Eq
  writes := Eq
  pools held p q := p = q ∧ ∀ pair ∈ held, pair.1 = pair.2
  named := named
  worded := False
  runtimeNames := False.elim
  sizes := rfl
  runtime := rfl
  emit := rfl
  reads_of_writes := id
  unused := rfl
  stackPointer := rfl
  zero := rfl
  returnValue := rfl
  link := rfl
  start := ⟨rfl, by simp⟩
  live h := congrArg RegisterPool.live h.1
  acquire := by
    rintro held p _ ⟨rfl, hheld⟩ -
    rcases h : p.acquire with f | ⟨r, p'⟩
    · exact .inl ⟨f, rfl, rfl⟩
    · exact .inr ⟨r, r, p', p', rfl, rfl, rfl, rfl, List.forall_mem_cons.2 ⟨rfl, hheld⟩⟩
  release := by
    rintro held p _ r s ⟨rfl, hheld⟩ hm
    obtain rfl : r = s := hheld _ hm
    rcases h : p.release r with f | p'
    · exact .inl ⟨f, rfl, rfl⟩
    · exact .inr ⟨p', p', rfl, rfl, rfl, fun pair hp => hheld pair (List.mem_of_mem_erase hp)⟩

theorem Item.eq_of_mirrors {config : Config} {wanted : Bool} {named : Prop} {i j : Item}
    (h : i.Mirrors (.commenting config wanted named) j) : i = j := by
  cases i with
  | instruction i =>
    cases j with
    | instruction j =>
      obtain ⟨hop, hk, -, hi, hj, hrk, -, -⟩ := h
      cases i
      cases j
      cases hop
      cases hk
      cases hi
      cases hj
      cases hrk
      rfl
    | _ => cases h
  | entry =>
    cases j with
    | entry => rfl
    | _ => cases h
  | reserve m =>
    cases j with
    | reserve n => exact congrArg Item.reserve h
    | _ => cases h

theorem Line.eq_of_mirrors {config : Config} {wanted : Bool} {named : Prop} {l m : Line}
    (h : l.Mirrors (.commenting config wanted named) m) : l = m := by
  cases h with
  | blank => rfl
  | plain hi => rw [Item.eq_of_mirrors hi]
  | labeled _ hi => rw [Item.eq_of_mirrors hi]

/-- Comments never change the program. Of two configurations that differ in nothing but whether
comments are wanted, a program whose names have no line feed is refused with the same error by both,
or compiled by both; and an assembler that is given the same symbols then refuses both texts, or
makes images that have the same instruction at every address, the same data, entry and labels. -/
theorem comments_change_nothing {a b : Config} (hab : a.commenting b.emit.comments = b) {p : Program}
    (hn : OneLiners p.names) :
    (∃ e, (compile a p).1 = .error e ∧ (compile b p).1 = .error e) ∨
    ∃ x y, (compile a p).1 = .ok x ∧ (compile b p).1 = .ok y ∧
      ∀ symbols, (∃ e e', assemble x.assembly symbols = .error e
          ∧ assemble y.assembly symbols = .error e') ∨
        ∃ i j, assemble x.assembly symbols = .ok i ∧ assemble y.assembly symbols = .ok j
          ∧ (∀ addr : Int32, i.code[addr]? = j.code[addr]?) ∧ i.data = j.data ∧ i.entry = j.entry
          ∧ i.labels = j.labels := by
  generalize hw : b.emit.comments = wanted at hab
  subst hab
  rcases compile_mirrors (.commenting a wanted (OneLiners p.names)) id False.elim with
    herror | ⟨x, y, hx, hy, hxy, -⟩
  · exact .inl herror
  · refine .inr ⟨x, y, hx, hy, fun symbols => ?_⟩
    obtain ⟨hlx, hly⟩ := hxy.legible hn
    have htexts : MirrorTexts Eq (lines x.assembly.toList) (lines y.assembly.toList) := by
      refine Code.mirrorTexts (fun l m hlm => ?_) hxy.lines hlx hly
      rw [Line.eq_of_mirrors hlm]
      exact .refl _
    rcases (assemble_mirrors htexts symbols).cases with herror | ⟨i, j, hi, hj, hij⟩
    · exact .inl herror
    · refine .inr ⟨i, j, hi, hj, fun addr => ?_, hij.data, hij.entry, hij.labels⟩
      have hcode := hij.code addr
      generalize i.code[addr]? = u, j.code[addr]? = v at hcode
      cases hcode with
      | none => rfl
      | some h => rw [h]

def remarks : Program :=
  ⟨[], [{ name := "main", className := "", isConstructor := false, params := [], returns := .void,
          body := [.declare ⟨"y", .integer⟩ (.binary .add (.int 1) (.int 2) .void),
            .when (.var "y" .void) [.write (.var "y" .void)]] }]⟩

theorem comments_change_nothing_remarks : Config.commenting {} false ≠ {} ∧ ∃ x y,
    (compile {} remarks).1 = .ok x ∧ (compile (Config.commenting {} false) remarks).1 = .ok y ∧
    ∀ symbols, (∃ e e', assemble x.assembly symbols = .error e
        ∧ assemble y.assembly symbols = .error e') ∨
      ∃ i j, assemble x.assembly symbols = .ok i ∧ assemble y.assembly symbols = .ok j
        ∧ (∀ addr : Int32, i.code[addr]? = j.code[addr]?) ∧ i.data = j.data ∧ i.entry = j.entry
        ∧ i.labels = j.labels := by
  refine ⟨by decide, ?_⟩
  obtain ⟨c, hc, -⟩ := compile_of_code? {} remarks (fun _ => true) (by cbv)
  rcases comments_change_nothing (a := {}) (b := Config.commenting {} false) rfl (p := remarks)
    (by decide) with ⟨e, he, -⟩ | h
  · rw [hc] at he
    cases he
  · exact h

end MoonBackend
