import MoonBackend.Proofs.Config.Accepted
import MoonBackend.Proofs.Layout.Placing
import MoonBackend.Proofs.Symbols.Reorder

/-!
# The sizing as a fixed point

Resolving a layout succeeds exactly if everything takes space and no class contains itself, and then
sizes are those of the rules: they add up, whatever the order in which classes and functions are
listed. There is at most one pass for each scope, and a fault leaves no wrong size behind.
-/

namespace MoonBackend

open Layout

namespace Layout

/-! ### All outcomes of a resolution -/

theorem headsMatch_of_build {p : Program} {t : Table} (h : Table.build p = .ok t) : HeadsMatch t := by
  obtain ⟨t₀, hs, hc, ht⟩ := Table.of_build h
  obtain ⟨-, hbody⟩ := Table.of_completeFunctions hc
  intro i s hi
  have hi₀ : t₀.functions[i]? = some s := by
    rw [ht] at hi
    exact hi
  obtain ⟨f, hf, hof⟩ := hs.functionScope i s hi₀
  obtain ⟨body, -, hat⟩ := hbody i f hf
  exact ⟨f, hof, body, hat⟩

section

variable {p : Program} {t : Table} {c : Config}

def started (t : Table) (c : Config) : Layout :=
  { ofTable t c with table := supplied t c.emit.entryFunction }

theorem size_started (h : Table.build p = .ok t) :
    ∀ s ∈ (started t c).table.classes ++ (started t c).table.functions, s.size = none := by
  obtain ⟨t₀, hs, -, ht⟩ := Table.of_build h
  have hclasses : t.classes = t₀.classes := by rw [ht]
  have hfunctions : t.functions = t₀.functions := by rw [ht]
  intro s hm
  rcases List.mem_append.1 hm with hm | hm
  · obtain ⟨i, hi⟩ := List.mem_iff_getElem?.1 (hclasses ▸ hm : s ∈ t₀.classes)
    obtain ⟨_, -, hof⟩ := hs.classScope i s hi
    exact hof.size
  · obtain ⟨i, hi, rfl⟩ := List.mem_mapIdx.1 hm
    have hi₀ : t₀.functions[i]? = some t.functions[i] := by
      rw [← hfunctions]
      exact List.getElem?_eq_getElem hi
    obtain ⟨_, -, hof⟩ := hs.functionScope i _ hi₀
    exact hof.size

theorem sizing_started (h : Table.build p = .ok t) :
    Sizing p c.sizes (supplied t c.emit.entryFunction) (started t c) := by
  have hf := (Table.fresh_of_build h).supplied c.emit.entryFunction
  have hsize := size_started (c := c) h
  refine ⟨.refl _, rfl, ⟨fun s hm n hn => ?_, fun s hm n hn => ?_, fun s hm e he n hn => ?_⟩,
    fun s hm => ⟨hf.placed s hm, fun e he => (hf.entries s hm e he).2⟩⟩
  · rw [hsize s (List.mem_append_left _ hm)] at hn
    cases hn
  · rw [hsize s (List.mem_append_right _ hm)] at hn
    cases hn
  · rw [(hf.entries s hm e he).1] at hn
    cases hn

theorem open_started (h : Table.build p = .ok t) {id : ScopeId} (hid : id ∈ sizedScopes t) :
    (started t c).Open id := by
  have hsize := size_started (c := c) h
  rcases mem_sizedScopes.1 hid with ⟨i, hi, rfl⟩ | ⟨i, hi, rfl⟩
  · have hget : (started t c).table.classes[i]? = some t.classes[i] := List.getElem?_eq_getElem hi
    exact ⟨_, hget, hsize _ (List.mem_append_left _ (List.mem_of_getElem? hget))⟩
  · have hlt : i < (started t c).table.functions.length := by
      simpa [started, supplied] using hi
    have hget := List.getElem?_eq_getElem hlt
    exact ⟨_, hget, hsize _ (List.mem_append_right _ (List.mem_of_getElem? hget))⟩

theorem sizedScopes_started : sizedScopes (started t c).table = sizedScopes t := by
  simp [sizedScopes, started, supplied]

theorem sizedScopes_sizing {l : Layout}
    (h : Sizing p c.sizes (supplied t c.emit.entryFunction) l) :
    sizedScopes l.table = sizedScopes t := by
  have hlater : (started t c).table.Later l.table := h.later
  rw [← sizedScopes_started (t := t) (c := c)]
  unfold sizedScopes
  rw [hlater.classes.length_eq, hlater.functions.length_eq]

theorem length_sizedScopes : (sizedScopes t).length = t.classes.length + t.functions.length := by
  simp [sizedScopes]

theorem ne_global_of_mem {id : ScopeId} (h : id ∈ sizedScopes t) : id ≠ .global := by
  rcases mem_sizedScopes.1 h with ⟨i, -, rfl⟩ | ⟨i, -, rfl⟩
  · nofun
  · nofun

/-- A resolution is a sizing, and a placement that does not fault. -/
theorem resolve_of_sizeAll (hb : Table.build p = .ok t) (hp : c.sizes.Proper) :
    ∃ l, (ofTable t c).resolve = (((sizeAll (sizedScopes t)).run (started t c)).1, l)
      ∧ Exact p c.sizes l.table ∧ l.passes ≤ t.classes.length + t.functions.length
      ∧ (supplied t c.emit.entryFunction).Later l.table
      ∧ (((sizeAll (sizedScopes t)).run (started t c)).1 = .ok () → EntriesSized l.table
        ∧ AllSizable p (supplied t c.emit.entryFunction) ∧ p.Acyclic
        ∧ (Fits p c.sizes (supplied t c.emit.entryFunction) → ScopesSized l.table)) := by
  have hd := (Table.declares_of_build hb).supplied c.emit.entryFunction
  have hsupply := supplyAll_ok (headsMatch_of_build hb) c
  have hids : ∀ id ∈ sizedScopes t, id ≠ .global := fun _ => ne_global_of_mem
  rcases hrun : (sizeAll (sizedScopes t)).run (started t c) with ⟨r, l₂⟩
  obtain ⟨hs₂, hpasses⟩ := (sizing_started hb).sizeAll hp hd hids hrun
  have hle : l₂.passes ≤ t.classes.length + t.functions.length := by
    rw [← length_sizedScopes]
    have hzero : (started t c).passes = 0 := rfl
    omega
  cases r with
  | error f =>
    refine ⟨l₂, ?_, hs₂.exact, hle, hs₂.later, nofun⟩
    unfold resolve resolveSteps
    rw [run_bind]
    show ((List.range t.functions.length).forM supplyFunction >>= _).run (ofTable t c) = _
    rw [run_bind, hsupply]
    show (sizeAll (sizedScopes t) >>= _).run (started t c) = _
    rw [run_bind, hrun]
  | ok u =>
    have hdone := (of_sizeAll _ (Nat.le_refl _) hrun).2
    have hdone : ∀ id ∈ sizedScopes l₂.table, l₂.Done id := sizedScopes_sizing hs₂ ▸ hdone
    obtain ⟨hsizable, hbytes⟩ := hs₂.sizable hd hdone
    have hac := Program.acyclic_of_classBytes hd.nodup hbytes
    obtain ⟨l₃, l₄, h3, h4, hplacing, hp₄⟩ := placeAll_ok hd hac
      ⟨hs₂.later, hs₂.exact, entriesSized_of_done hdone, fun s hs _ => hs₂.unplaced s hs⟩
      (fun s hs => (hs₂.unplaced s (List.mem_append_right _ hs)).1) t.depth
      (List.range t.classes.length) (List.range t.functions.length) List.nodup_range
    refine ⟨{ l₄ with resolved := true }, ?_, hplacing.exact, hp₄ ▸ hle, hplacing.later,
      fun _ => ⟨hplacing.sized, hsizable, hac, fun hfit => ?_⟩⟩
    · exact resolve_eq_ok.2 ⟨_, l₂, l₃, l₄, hsupply, hrun, h3, h4, rfl⟩
    · have hclasses := Fills.forM (Fills.placeClass _) _ _ _ _ h3
      have hframes := Fills.forM (fun i _ _ _ hf => (of_placeFunction hf).1) _ _ _ _ h4
      exact (hs₂.scopesSized hd hfit hdone).later (hclasses.trans hframes).table

end

/-! ### Sizes add up -/

/-- The integer that a size stands for. -/
def bytesOf (size : Option Int64) : ℤ := (wordOfSize size).toInt

/-- Every size is there and is the sum or the product that it should be, without any wrapping. -/
structure AddsUp (sizes : Sizes) (t : Table) : Prop where
  entries : ∀ s ∈ t.classes ++ t.functions, ∀ e ∈ s.storage, e.size ≠ none
  addresses : ∀ s ∈ t.classes ++ t.functions, ∀ e ∈ s.storage, e.kind.isAddress = true →
    bytesOf e.size = sizes.word.toInt
  values : ∀ s ∈ t.classes ++ t.functions, ∀ e ∈ s.storage, e.kind.isAddress = false →
    ∃ k, t.elementSize sizes e.type = .ok (some k)
      ∧ bytesOf e.size = k.toInt * (e.type.dims.map Int64.toInt).prod
  classes : ∀ s ∈ t.classes, s.size ≠ none ∧ bytesOf s.size
    = ((t.bases s).map fun b => bytesOf b.size).sum + (s.storage.map fun e => bytesOf e.size).sum
  frames : ∀ s ∈ t.functions, s.size ≠ none
    ∧ bytesOf s.size = (s.storage.map fun e => bytesOf e.size).sum

/-- Every recorded size is the one that the rules give. -/
structure Precise (p : Program) (sizes : Sizes) (t : Table) : Prop where
  classes : ∀ s ∈ t.classes, ∀ n, s.size = some n →
    ∃ d m, p.classBytes sizes d s.name = some m ∧ n.toInt = m
  functions : ∀ s ∈ t.functions, ∀ n, s.size = some n →
    ∃ d m, s.bytes sizes (p.classBytes sizes d) = some m ∧ n.toInt = m
  entries : ∀ s ∈ t.classes ++ t.functions, ∀ e ∈ s.storage, ∀ n, e.size = some n →
    ∃ d m, e.bytes sizes (p.classBytes sizes d) = some m ∧ n.toInt = m

theorem precise_of_exact {p : Program} {sizes : Sizes} {t : Table} (hx : Exact p sizes t)
    (hfit : Fits p sizes t) : Precise p sizes t := by
  refine ⟨fun s hs n hn => ?_, fun s hs n hn => ?_, fun s hs e he n hn => ?_⟩
  · obtain ⟨d, m, hm, hexact⟩ := hx.classes s hs n hn
    exact ⟨d, m, hm, hexact (hfit.classes d s.name m hm)⟩
  · obtain ⟨d, m, hm, hexact⟩ := hx.functions s hs n hn
    exact ⟨d, m, hm, hexact (hfit.frames d s hs m hm)⟩
  · obtain ⟨-, d, m, hm, hexact⟩ := hx.entries s hs e (List.mem_filter.1 he).1 n hn
    exact ⟨d, m, hm, hexact (hfit.entries d s hs e he m hm)⟩

theorem sum_bytesOf {α : Type} {f : α → Option Int64} {v : α → ℕ} {l : List α}
    (h : ∀ a ∈ l, ∃ n, f a = some n ∧ n.toInt = v a) :
    (l.map fun a => bytesOf (f a)).sum = ((l.map v).sum : ℕ) := by
  induction l with
  | nil => rfl
  | cons a l ih =>
    obtain ⟨n, hn, hv⟩ := h a List.mem_cons_self
    rw [List.map_cons, List.sum_cons, ih fun b hb => h b (List.mem_cons_of_mem _ hb), List.map_cons,
      List.sum_cons, hn, Int.natCast_add]
    exact congrArg (· + _) hv

theorem prod_dimensions {ds : List Int64} (h : ∀ d ∈ ds, 0 < d) :
    (ds.map Int64.toInt).prod = (dimensions ds : ℤ) := by
  induction ds with
  | nil => rfl
  | cons d ds ih =>
    rw [List.map_cons, List.prod_cons, ih fun d' hd' => h d' (List.mem_cons_of_mem _ hd'),
      dimensions_cons, Int.natCast_mul, ← toInt_eq_toNat (Int64.le_of_lt (h d List.mem_cons_self))]

section

variable {p : Program} {sizes : Sizes} {t : Table}

theorem precise_sum {α : Type} {f : (String → Option ℕ) → α → Option ℕ}
    (hf : ∀ classes classes', Refines classes classes' → Refines (f classes) (f classes'))
    {l : List α} {size : α → Option Int64} (h : ∀ a ∈ l, ∃ n, size a = some n
      ∧ ∃ d m, f (p.classBytes sizes d) a = some m ∧ n.toInt = m) :
    ∃ d m, total (f (p.classBytes sizes d)) l = some m
      ∧ (l.map fun a => bytesOf (size a)).sum = (m : ℤ) := by
  choose! n hn d v hv he using h
  obtain ⟨d', hd'⟩ := Program.total_of_forall hf (v := v)
    fun a ha => ⟨d a, hv a ha⟩
  exact ⟨d', _, hd', sum_bytesOf fun a ha => ⟨n a, hn a ha, he a ha⟩⟩

theorem storage_sum (hx : Precise p sizes t) (he : EntriesSized t) {s : Scope}
    (hs : s ∈ t.classes ++ t.functions) :
    ∃ d m, s.bytes sizes (p.classBytes sizes d) = some m
      ∧ (s.storage.map fun e => bytesOf e.size).sum = (m : ℤ) := by
  refine precise_sum (f := fun classes (e : Entry) => e.bytes sizes classes)
    (fun _ _ h => Entry.bytes_refines h) fun e hm => ?_
  obtain ⟨n, hn⟩ := Option.ne_none_iff_exists'.1 (he s hs e hm)
  exact ⟨n, hn, hx.entries s hs e hm n hn⟩

theorem bases_sum (hd : Table.Declares p t) (hx : Precise p sizes t) (ha : ScopesSized t) (s : Scope) :
    ∃ d m, total (p.classBytes sizes d) (t.baseNames s) = some m
      ∧ ((t.bases s).map fun b => bytesOf b.size).sum = (m : ℤ) := by
  obtain ⟨d, m, hm, hsum⟩ := @precise_sum p sizes Scope (fun classes sb => classes sb.name)
    (fun _ _ h sb => h sb.name) (t.bases s) Scope.size fun sb hsb => by
      have hm := hd.mem_bases hsb
      obtain ⟨n, hn⟩ := Option.ne_none_iff_exists'.1 (ha sb (List.mem_append_left _ hm))
      exact ⟨n, hn, hx.classes sb hm n hn⟩
  rw [← total_map, hd.map_name_bases] at hm
  exact ⟨d, m, hm, hsum⟩

theorem addsUp (hp : sizes.Proper) (hd : Table.Declares p t) (hexact : Exact p sizes t)
    (hfit : Fits p sizes t) (he : EntriesSized t) (ha : ScopesSized t) (hs : AllSizable p t) :
    AddsUp sizes t := by
  have hx := precise_of_exact hexact hfit
  have hbytes : ∀ s ∈ t.classes ++ t.functions, ∀ e ∈ s.storage,
      ∃ d m, e.bytes sizes (p.classBytes sizes d) = some m ∧ bytesOf e.size = (m : ℤ) := by
    intro s hsm e hem
    obtain ⟨n, hn⟩ := Option.ne_none_iff_exists'.1 (he s hsm e hem)
    obtain ⟨d, m, hm, hnm⟩ := hx.entries s hsm e hem n hn
    exact ⟨d, m, hm, by rw [hn]; exact hnm⟩
  refine ⟨he, fun s hsm e he hk => ?_, fun s hsm e he hk => ?_, fun s hsm => ?_,
    fun s hsm => ?_⟩
  · obtain ⟨d, m, hm, hb⟩ := hbytes s hsm e he
    rw [hb]
    unfold Entry.bytes at hm
    rw [if_pos hk] at hm
    cases hm
    exact (toInt_eq_toNat (Int64.le_of_lt hp.word)).symm
  · obtain ⟨d, m, hm, hb⟩ := hbytes s hsm e he
    have hlt := hfit.entries d s hsm e he m hm
    unfold Entry.bytes at hm
    rw [if_neg (by rw [hk]; decide)] at hm
    obtain ⟨hdims, k, hk', rfl⟩ := Ty.bytes_eq_some.1 hm
    rcases elementSize_ok hd (hs s hsm e he hk) with ⟨n, hn⟩ | ⟨-, name, x, -, hx', hnone⟩
    · obtain ⟨d', k', hk'', hexact⟩ := elementSize_exact hp hd hexact hn
      have hsame : k = k' := Program.classBytes_unique
        (f := fun classes ty => Ty.bytes sizes classes ty) (a := ⟨e.type.base, []⟩)
        (fun _ _ h => Ty.bytes_refines h)
        (Ty.bytes_eq_some.2 ⟨nofun, k, hk', by simp [dimensions]⟩)
        (Ty.bytes_eq_some.2 ⟨nofun, k', hk'', by simp [dimensions]⟩)
      subst hsame
      have hle : k ≤ k * dimensions e.type.dims :=
        Nat.le_mul_of_pos_right _ (dimensions_pos hdims)
      refine ⟨n, hn, ?_⟩
      rw [hb, hexact (by omega), prod_dimensions hdims, Int.natCast_mul]
    · exact absurd hnone (ha x (List.mem_append_left _ (hd.of_class? hx').1))
  · have hsize := ha s (List.mem_append_left _ hsm)
    refine ⟨hsize, ?_⟩
    obtain ⟨n, hn⟩ := Option.ne_none_iff_exists'.1 hsize
    obtain ⟨d₀, m₀, hm₀, hnm⟩ := hx.classes s hsm n hn
    obtain ⟨d₁, m₁, hm₁, hb₁⟩ := bases_sum hd hx ha s
    obtain ⟨d₂, m₂, hm₂, hb₂⟩ := storage_sum hx he (List.mem_append_left _ hsm)
    obtain ⟨c, hc, hdec, hclass⟩ := hd.of_mem hsm
    rw [hd.baseNames hc hdec] at hm₁
    rw [hdec.bytes] at hm₂
    have hsum : p.classBytes sizes (max d₁ d₂ + 1) s.name = some (m₁ + m₂) := by
      refine Program.classBytes_succ.2 ⟨c, _, _, hclass, ?_, ?_, rfl⟩
      · exact total_refines (fun b _ => Program.classBytes_refines (Nat.le_max_left d₁ d₂) b) hm₁
      · exact total_refines (fun a _ => Ty.bytes_refines
          (Program.classBytes_refines (Nat.le_max_right d₁ d₂)) a.type) hm₂
    have hsame : m₀ = m₁ + m₂ := Program.classBytes_unique (f := fun classes => classes)
      (fun _ _ h => h) hm₀ hsum
    rw [hn, hb₁, hb₂, ← Int.natCast_add, ← hsame]
    exact hnm
  · have hsize := ha s (List.mem_append_right _ hsm)
    refine ⟨hsize, ?_⟩
    obtain ⟨n, hn⟩ := Option.ne_none_iff_exists'.1 hsize
    obtain ⟨d₀, m₀, hm₀, hnm⟩ := hx.functions s hsm n hn
    obtain ⟨d₂, m₂, hm₂, hb₂⟩ := storage_sum hx he (List.mem_append_right _ hsm)
    have hsame : m₀ = m₂ := Program.classBytes_unique
      (f := fun classes (s : Scope) => s.bytes sizes classes)
      (fun _ _ h s n hn => total_refines (fun e _ => Entry.bytes_refines h e) hn) hm₀ hm₂
    rw [hn, hb₂, ← hsame]
    exact hnm

end

/-! ### The order of declarations does not matter -/

def sizesOf (s : Scope) : Option Int64 × List (Option Int64) := (s.size, s.storage.map Entry.size)

theorem classBytes_perm {p p' : Program} (h : p.classes.Perm p'.classes)
    (hn : (p.classes.map ClassDecl.name).Nodup) (sizes : Sizes) (depth : ℕ) :
    p'.classBytes sizes depth = p.classBytes sizes depth := by
  induction depth with
  | zero => rfl
  | succ depth ih =>
    funext name
    rw [Program.classBytes, Program.classBytes, Program.class?_perm h hn, ih]

theorem contains_perm {p p' : Program} (h : p.classes.Perm p'.classes) : p'.Contains = p.Contains := by
  funext c d
  unfold Program.Contains
  simp only [h.mem_iff]

theorem sizable_perm {p p' : Program} (h : p.classes.Perm p'.classes) {type : Ty}
    (hs : type.Sizable p) : type.Sizable p' := by
  refine ⟨hs.notVoid, hs.dims, fun name hname => ?_⟩
  obtain ⟨c, hc, he⟩ := hs.declared name hname
  exact ⟨c, h.mem_iff.1 hc, he⟩

theorem sizes_of_outline {p p' : Program} {sizes : Sizes} {t t' : Table}
    (hbytes : ∀ d, p'.classBytes sizes d = p.classBytes sizes d) (hx : Precise p sizes t)
    (hx' : Precise p' sizes t') (ha : EntriesSized t) (ha' : EntriesSized t') {s s' : Scope}
    (hs : s ∈ t.classes ++ t.functions) (hs' : s' ∈ t'.classes ++ t'.functions)
    (ho : s'.storage.map Entry.outline = s.storage.map Entry.outline) :
    s'.storage.map Entry.size = s.storage.map Entry.size := by
  apply List.ext_getElem?
  intro i
  have hi := congrArg (fun l => l[i]?) ho
  simp only [List.getElem?_map] at hi ⊢
  cases he : s.storage[i]? with
  | none =>
    rw [he, Option.map_none, Option.map_eq_none_iff] at hi
    rw [hi]
  | some e =>
    rw [he, Option.map_some, Option.map_eq_some_iff] at hi
    obtain ⟨e', he', hout⟩ := hi
    have hm := List.mem_of_getElem? he
    have hm' := List.mem_of_getElem? he'
    obtain ⟨n, hn⟩ := Option.ne_none_iff_exists'.1 (ha s hs e hm)
    obtain ⟨n', hn'⟩ := Option.ne_none_iff_exists'.1 (ha' s' hs' e' hm')
    obtain ⟨d, m, hdm, hnm⟩ := hx.entries s hs e hm n hn
    obtain ⟨d', m', hdm', hnm'⟩ := hx'.entries s' hs' e' hm' n' hn'
    rw [hbytes, Entry.bytes_of_outline hout] at hdm'
    have hsame : m = m' := Program.classBytes_unique
      (f := fun classes (e : Entry) => e.bytes sizes classes) (fun _ _ h => Entry.bytes_refines h)
      hdm hdm'
    have hnn : n = n' := Int64.toInt_inj.1 (by rw [hnm, hnm', hsame])
    rw [he', Option.map_some, Option.map_some, hn, hn', hnn]

section

variable {σ : Equiv.Perm ℕ} {p p' : Program} {t t' : Table} {entryName : String}
variable (hre : Program.Reordered σ p p') (hb : Table.build p = .ok t)
variable (hb' : Table.build p' = .ok t')
include hre hb hb'

theorem class_reordered (name : String) :
    ((supplied t entryName).class? name = none ∧ (supplied t' entryName).class? name = none)
      ∨ ∃ s s', (supplied t entryName).class? name = some s
        ∧ (supplied t' entryName).class? name = some s'
        ∧ s'.storage.map Entry.outline = s.storage.map Entry.outline := by
  have hd := (Table.declares_of_build hb).supplied entryName
  have hd' := (Table.declares_of_build hb').supplied entryName
  rcases hd.class?_perm hd' hre.classes name with h | ⟨c, s, s', -, hs, hs', hdec, hdec'⟩
  · exact .inl h
  · exact .inr ⟨s, s', hs, hs', hdec'.storage.trans hdec.storage.symm⟩

theorem function_reordered {i : ℕ} {s' : Scope}
    (hs' : (supplied t' entryName).functions[σ i]? = some s') :
    ∃ s, (supplied t entryName).functions[i]? = some s
      ∧ s'.entries.map Entry.outline = s.entries.map Entry.outline := by
  have hi := Table.supplied_reordered hre hb hb' entryName i
  rw [hs', Option.map_some] at hi
  obtain ⟨s, hs, ho⟩ := Option.map_eq_some_iff.1 hi.symm
  exact ⟨s, hs, ho.symm⟩

theorem mem_function_reordered {s' : Scope} (hs' : s' ∈ (supplied t' entryName).functions) :
    ∃ s ∈ (supplied t entryName).functions,
      s'.entries.map Entry.outline = s.entries.map Entry.outline := by
  obtain ⟨j, hj⟩ := List.mem_iff_getElem?.1 hs'
  obtain ⟨i, rfl⟩ := σ.surjective j
  obtain ⟨s, hs, ho⟩ := function_reordered hre hb hb' hj
  exact ⟨s, List.mem_of_getElem? hs, ho⟩

theorem entry_reordered {s' : Scope}
    (hs' : s' ∈ (supplied t' entryName).classes ++ (supplied t' entryName).functions) {e' : Entry}
    (he' : e' ∈ s'.storage) :
    ∃ s ∈ (supplied t entryName).classes ++ (supplied t entryName).functions, ∃ e ∈ s.storage,
      e'.outline = e.outline := by
  obtain ⟨s, hs, ho⟩ : ∃ s ∈ (supplied t entryName).classes ++ (supplied t entryName).functions,
      s'.storage.map Entry.outline = s.storage.map Entry.outline := by
    rcases List.mem_append.1 hs' with hs' | hs'
    · have hd' := (Table.declares_of_build hb').supplied entryName
      have hd := (Table.declares_of_build hb).supplied entryName
      have hc' := hd'.class?_of_mem hs'
      rcases @class_reordered _ _ _ _ _ entryName hre hb hb' s'.name with
        ⟨-, hn⟩ | ⟨s, s₁, hs, hs₁, ho⟩
      · rw [hc'] at hn
        cases hn
      · rw [hc'] at hs₁
        cases hs₁
        exact ⟨s, List.mem_append_left _ (hd.of_class? hs).1, ho⟩
    · obtain ⟨s, hs, ho⟩ := mem_function_reordered hre hb hb' hs'
      exact ⟨s, List.mem_append_right _ hs, map_outline_storage ho⟩
  have hmem : e'.outline ∈ s.storage.map Entry.outline := ho ▸ List.mem_map_of_mem he'
  obtain ⟨e, he, hout⟩ := List.mem_map.1 hmem
  exact ⟨s, hs, e, he, hout.symm⟩

theorem fits_reordered {sizes : Sizes} (hfit : Fits p sizes (supplied t entryName)) :
    Fits p' sizes (supplied t' entryName) := by
  have hbytes := classBytes_perm hre.classes (Table.declares_of_build hb).nodup sizes
  refine ⟨fun d name n hn => ?_, fun d s' hs' e' he' n hn => ?_, fun d s' hs' n hn => ?_⟩
  · rw [hbytes] at hn
    exact hfit.classes d name n hn
  · obtain ⟨s, hs, e, he, ho⟩ := entry_reordered hre hb hb' hs' he'
    rw [hbytes, Entry.bytes_of_outline ho] at hn
    exact hfit.entries d s hs e he n hn
  · obtain ⟨s, hs, ho⟩ := mem_function_reordered hre hb hb' hs'
    rw [hbytes, Scope.bytes_of_outline ho] at hn
    exact hfit.frames d s hs n hn

theorem allSizable_reordered (h : AllSizable p (supplied t entryName)) :
    AllSizable p' (supplied t' entryName) := by
  intro s' hs' e' he' ha
  obtain ⟨s, hs, e, he, ho⟩ := entry_reordered hre hb hb' hs' he'
  simp only [Entry.outline, Prod.mk.injEq] at ho
  rw [ho.2.2]
  exact sizable_perm hre.classes (h s hs e he (ho.1 ▸ ha))

theorem sizes_reordered {sizes : Sizes} {t₂ t₂' : Table} (hl : (supplied t entryName).Later t₂)
    (hl' : (supplied t' entryName).Later t₂') (hx : Precise p sizes t₂) (hx' : Precise p' sizes t₂')
    (he : EntriesSized t₂) (he' : EntriesSized t₂') (ha : ScopesSized t₂) (ha' : ScopesSized t₂') :
    (∀ name, (t₂'.class? name).map sizesOf = (t₂.class? name).map sizesOf)
      ∧ ∀ i, (t₂'.functions[σ i]?).map sizesOf = (t₂.functions[i]?).map sizesOf := by
  have hd₂ := ((Table.declares_of_build hb).supplied entryName).later hl
  have hd₂' := ((Table.declares_of_build hb').supplied entryName).later hl'
  have hbytes := classBytes_perm hre.classes hd₂.nodup sizes
  have hsame : ∀ {n n' : Int64} {f : (String → Option ℕ) → Option ℕ}
      (_ : ∀ classes classes', Refines classes classes' →
        ∀ n, f classes = some n → f classes' = some n),
      (∃ d m, f (p.classBytes sizes d) = some m ∧ n.toInt = m) →
      (∃ d m, f (p'.classBytes sizes d) = some m ∧ n'.toInt = m) → n' = n := by
    rintro n n' f hf ⟨d, m, hm, hnm⟩ ⟨d', m', hm', hnm'⟩
    rw [hbytes] at hm'
    have hmm : m = m' := Program.classBytes_unique (f := fun classes (_ : Unit) => f classes)
      (a := ()) (fun c c' h _ => hf c c' h) hm hm'
    exact Int64.toInt_inj.1 (by rw [hnm, hnm', hmm])
  constructor
  · intro name
    rcases hd₂.class?_perm hd₂' hre.classes name with ⟨hn, hn'⟩ | ⟨c, s, s', -, hs, hs', hdec, hdec'⟩
    · rw [hn, hn']
    · obtain ⟨hm, hname, -⟩ := hd₂.of_class? hs
      obtain ⟨hm', hname', -⟩ := hd₂'.of_class? hs'
      have hmem := List.mem_append_left t₂.functions hm
      have hmem' := List.mem_append_left t₂'.functions hm'
      obtain ⟨n, hn⟩ := Option.ne_none_iff_exists'.1 (ha s hmem)
      obtain ⟨n', hn'⟩ := Option.ne_none_iff_exists'.1 (ha' s' hmem')
      have hc := hx.classes s hm n hn
      have hc' := hx'.classes s' hm' n' hn'
      rw [hname] at hc
      rw [hname'] at hc'
      have hnn := hsame (f := fun classes => classes name) (fun _ _ h n => h name n) hc hc'
      have hents := sizes_of_outline hbytes hx hx' he he' hmem hmem'
        (hdec'.storage.trans hdec.storage.symm)
      rw [hs, hs', Option.map_some, Option.map_some, sizesOf, sizesOf, hn, hn', hnn, hents]
  · intro i
    have hr := rel_getElem? hl.functions i
    have hr' := rel_getElem? hl'.functions (σ i)
    have hsup := Table.supplied_reordered hre hb hb' entryName i
    cases hs : t₂.functions[i]? with
    | none =>
      rw [hs] at hr
      have h0 : (supplied t entryName).functions[i]? = none := by
        cases h0 : (supplied t entryName).functions[i]? with
        | none => rfl
        | some s =>
          rw [h0] at hr
          cases hr
      rw [h0, Option.map_none, Option.map_eq_none_iff] at hsup
      rw [hsup] at hr'
      rw [of_rel_none hr']
    | some s =>
      rw [hs] at hr
      cases h0 : (supplied t entryName).functions[i]? with
      | none =>
        rw [h0] at hr
        cases hr
      | some s₀ =>
        rw [h0] at hr
        rw [h0, Option.map_some, Option.map_eq_some_iff] at hsup
        obtain ⟨s₀', h0', ho⟩ := hsup
        rw [h0'] at hr'
        obtain ⟨s', hs', hls'⟩ := of_rel_some hr'
        cases hr with
        | some hls =>
          have hout : s'.entries.map Entry.outline = s.entries.map Entry.outline := by
            rw [map_outline_later hls'.entries, map_outline_later hls.entries, ho]
          have hm := List.mem_of_getElem? hs
          have hm' := List.mem_of_getElem? hs'
          have hmem := List.mem_append_right t₂.classes hm
          have hmem' := List.mem_append_right t₂'.classes hm'
          obtain ⟨n, hn⟩ := Option.ne_none_iff_exists'.1 (ha s hmem)
          obtain ⟨n', hn'⟩ := Option.ne_none_iff_exists'.1 (ha' s' hmem')
          have hc := hx.functions s hm n hn
          have hc' := hx'.functions s' hm' n' hn'
          simp only [Scope.bytes_of_outline hout] at hc'
          have hnn := hsame (f := fun classes => s.bytes sizes classes)
            (fun _ _ h n hn => total_refines (fun e _ => Entry.bytes_refines h e) hn) hc hc'
          have hents := sizes_of_outline hbytes hx hx' he he' hmem hmem' (map_outline_storage hout)
          rw [hs', Option.map_some, Option.map_some, sizesOf, sizesOf, hn, hn', hnn, hents]

end

/-! ### The fixed point -/

section

variable {p : Program} {t : Table} {c : Config}

/-- A resolution succeeds exactly if everything takes space and no class contains itself. -/
theorem resolve_ok_iff (hb : Table.build p = .ok t) (hp : c.sizes.Proper)
    (hfit : Fits p c.sizes (supplied t c.emit.entryFunction)) :
    (ofTable t c).resolve.1 = .ok () ↔
      AllSizable p (supplied t c.emit.entryFunction) ∧ p.Acyclic := by
  obtain ⟨l, hl, -, -, -, hok⟩ := resolve_of_sizeAll hb hp
  rw [hl]
  constructor
  · intro h
    obtain ⟨-, ha, hac, -⟩ := hok h
    exact ⟨ha, hac⟩
  · rintro ⟨ha, hac⟩
    have hd := (Table.declares_of_build hb).supplied c.emit.entryFunction
    have hattrs : ∀ k ∈ p.classes, ∀ a ∈ k.attributes, a.type.Sizable p := by
      intro k hk a hak
      obtain ⟨s, hs⟩ := hd.exists_class? ⟨k, hk, rfl⟩
      obtain ⟨hm, -, k', hk', hdec⟩ := hd.of_class? hs
      obtain rfl : k' = k := Option.some.inj
        (hk'.symm.trans ((Program.class?_eq_some_iff hd.nodup).2 ⟨hk, rfl⟩))
      have hmem : a.outline ∈ s.storage.map Entry.outline := by
        rw [hdec.storage]
        exact List.mem_map_of_mem hak
      obtain ⟨e, he, hout⟩ := List.mem_map.1 hmem
      have hkind : e.kind = .member := congrArg Prod.fst hout
      have htype : e.type = a.type := congrArg (fun o => o.2.2) hout
      rw [← htype]
      exact ha s (List.mem_append_left _ hm) e he (by rw [hkind]; rfl)
    have hbytes := @Program.classBytes_of_acyclic _ c.sizes hd.nodup hd.bases hattrs hac
    obtain ⟨l', hl'⟩ := (sizing_started (c := c) hb).sizeAll_ok hp hd hfit ha hbytes
      (fun _ => ne_global_of_mem) nodup_sizedScopes (fun id hid => open_started hb hid) (by
        rintro i ⟨s, hs, -⟩
        exact mem_sizedScopes.2 (.inl ⟨i, (List.getElem?_eq_some_iff.1 hs).1, rfl⟩))
    rw [hl']

/-- The sizing as a fixed point: when it is reached, what it is, that it does not hang on the order of
declarations, and what a fault leaves behind. -/
theorem resolve_fixedPoint (hb : Table.build p = .ok t) (hc : c.validate = .ok ())
    (hfit : Fits p c.sizes (supplied t c.emit.entryFunction)) :
    ((ofTable t c).resolve.1 = .ok () ↔
        AllSizable p (supplied t c.emit.entryFunction) ∧ p.Acyclic)
      ∧ ((ofTable t c).resolve.1 = .ok () → AddsUp c.sizes (ofTable t c).resolve.2.table
        ∧ ∀ (σ : Equiv.Perm ℕ) (p' : Program) (t' : Table), Program.Reordered σ p p' →
          Table.build p' = .ok t' → (ofTable t' c).resolve.1 = .ok ()
            ∧ (∀ name, ((ofTable t' c).resolve.2.table.class? name).map sizesOf
              = ((ofTable t c).resolve.2.table.class? name).map sizesOf)
            ∧ ∀ i, ((ofTable t' c).resolve.2.table.functions[σ i]?).map sizesOf
              = ((ofTable t c).resolve.2.table.functions[i]?).map sizesOf)
      ∧ (ofTable t c).resolve.2.passes ≤ p.classes.length + p.functions.length
      ∧ ∀ f, (ofTable t c).resolve.1 = .error f →
        Precise p c.sizes (ofTable t c).resolve.2.table := by
  have hp := Config.proper_of_validate hc
  have hd := (Table.declares_of_build hb).supplied c.emit.entryFunction
  have hiff := resolve_ok_iff hb hp hfit
  obtain ⟨l, hl, hx, hpasses, hlater, hok⟩ := resolve_of_sizeAll hb hp
  have hcounts : t.classes.length = p.classes.length ∧ t.functions.length = p.functions.length := by
    obtain ⟨t₀, hs, -, ht⟩ := Table.of_build hb
    rw [ht]
    exact ⟨hs.classCount, hs.functionCount⟩
  rw [hcounts.1, hcounts.2] at hpasses
  have hx' := precise_of_exact hx (hfit.later hlater)
  refine ⟨hiff, fun hres => ?_, by rw [hl]; exact hpasses, fun f _ => by rw [hl]; exact hx'⟩
  rw [hl] at hres ⊢
  obtain ⟨hentries, hsizable, hac, hscopes⟩ := hok hres
  refine ⟨addsUp hp (hd.later hlater) hx (hfit.later hlater) hentries (hscopes hfit)
    (hsizable.later hlater),
    fun σ p' t' hre hb' => ?_⟩
  have hfit' := fits_reordered hre hb hb' hfit
  have hres' : (ofTable t' c).resolve.1 = .ok () := by
    refine (resolve_ok_iff hb' hp hfit').2 ⟨allSizable_reordered hre hb hb' hsizable, ?_⟩
    unfold Program.Acyclic
    rw [contains_perm hre.classes]
    exact hac
  obtain ⟨l', hl', hx₁, -, hlater', hok'⟩ := resolve_of_sizeAll hb' hp
  rw [hl'] at hres' ⊢
  obtain ⟨hentries', -, -, hscopes'⟩ := hok' hres'
  exact ⟨hres', sizes_reordered hre hb hb' hlater hlater' hx'
    (precise_of_exact hx₁ (hfit'.later hlater')) hentries hentries' (hscopes hfit) (hscopes' hfit')⟩

end

/-! ### Sizes below the limit, by computation -/

/-- All sizes are known at a depth and below the limit. -/
def fitsAt (p : Program) (sizes : Sizes) (t : Table) (depth : ℕ) : Bool :=
  let classes := p.classBytes sizes depth
  (p.classes.all fun c => (classes c.name).any (· < 2 ^ 63))
    && ((t.classes ++ t.functions).all fun s => s.storage.all fun e =>
      (e.bytes sizes classes).any (· < 2 ^ 63))
    && t.functions.all fun s => (s.bytes sizes classes).any (· < 2 ^ 63)

theorem fits_of_fitsAt {p : Program} {sizes : Sizes} {t : Table} {depth : ℕ}
    (h : fitsAt p sizes t depth = true) : Fits p sizes t := by
  simp only [fitsAt, Bool.and_eq_true, List.all_eq_true] at h
  obtain ⟨⟨hclasses, hentries⟩, hframes⟩ := h
  refine ⟨fun d name n hn => ?_, fun d s hs e he n hn => ?_, fun d s hs n hn => ?_⟩
  · exact of_decide_eq_true (Program.check_of_classes hclasses hn)
  · exact of_decide_eq_true (Program.check_of_any (f := fun classes (e : Entry) =>
      e.bytes sizes classes) (fun _ _ h => Entry.bytes_refines h) (hentries s hs e he) hn)
  · exact of_decide_eq_true (Program.check_of_any (f := fun classes (s : Scope) =>
      s.bytes sizes classes) (fun _ _ h s n hn =>
        total_refines (fun e _ => Entry.bytes_refines h e) hn) (hframes s hs) hn)

/-- A class that holds objects of a class declared after it, and a function with a frame. -/
def segments : Program :=
  ⟨[⟨"Segment", ["Shape"], [⟨"ends", ⟨.object "Point", [2]⟩⟩]⟩, ⟨"Point", [], [⟨"x", .float⟩]⟩,
      ⟨"Shape", [], [⟨"id", .integer⟩]⟩],
    [{ name := "main", className := "", isConstructor := false, params := [], returns := .void,
       body := [.declare ⟨"s", .object "Segment"⟩ .missing] }]⟩

def tableChecks (p : Program) (check : Table → Bool) : Bool :=
  match Table.build p with
  | .ok t => check t
  | .error _ => false

theorem of_tableChecks (p : Program) (check : Table → Bool) (h : tableChecks p check = true) :
    ∃ t, Table.build p = .ok t ∧ check t = true := by
  unfold tableChecks at h
  split at h
  · exact ⟨_, ‹_›, h⟩
  · cases h

theorem resolve_of_isOk {l : Layout} (h : l.resolve.1.isOk = true) :
    l.resolve = (.ok (), l.resolve.2) := by
  cases hr : l.resolve.1 with
  | ok u => exact Prod.ext hr rfl
  | error f =>
    rw [hr] at h
    cases h

/-- Sizes that need two passes. -/
theorem resolve_fixedPoint_segments : ∃ t, Table.build segments = .ok t
    ∧ Fits segments {} (supplied t "main") ∧ (ofTable t {}).resolve.1 = .ok ()
    ∧ (ofTable t {}).resolve.2.passes = 2
    ∧ AddsUp {} (ofTable t {}).resolve.2.table ∧ segments.Acyclic := by
  obtain ⟨t, hb, hcheck⟩ := of_tableChecks segments (fun t =>
    fitsAt segments {} (supplied t "main") 2 && (ofTable t {}).resolve.1.isOk
      && (ofTable t {}).resolve.2.passes == 2) (by decide +kernel)
  simp only [Bool.and_eq_true, beq_iff_eq] at hcheck
  obtain ⟨⟨hfit, hok⟩, hpasses⟩ := hcheck
  have hfit := fits_of_fitsAt hfit
  have hres := congrArg Prod.fst (resolve_of_isOk hok)
  obtain ⟨hiff, hsum, -⟩ := resolve_fixedPoint hb (c := {}) rfl hfit
  exact ⟨t, hb, hfit, hres, hpasses, (hsum hres).1, (hiff.1 hres).2⟩

end Layout

end MoonBackend
