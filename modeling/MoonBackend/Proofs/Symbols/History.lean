import MoonBackend.Symbols.Build
import Mathlib.Logic.Function.Basic

/-!
# Histories of a scope

A scope that starts empty is asked to take entries, to size and place them and to be sized and
placed itself, in any order; a request that faults is caught and the next one made. `IndexedScope`
is a scope with the two indexes that answer its look-ups, kept in step by hand. Whatever the
history is, the indexes give the positions of exactly the entries that can be looked up, a name
or a node leads to at most one entry, entries are only added at the end, and what was recorded
once never changes.
-/

namespace MoonBackend

/-! ### Positions of entries -/

section Positions

variable {es : List Entry} {P : Entry → Prop} {o : Option Nat} {e e' : Entry} {i : Nat}

/-- The entry has the property, and no entry at another position has it. -/
def Alone (es : List Entry) (P : Entry → Prop) (e : Entry) : Prop :=
  ∃ i : Nat, es[i]? = some e ∧ P e ∧ ∀ (j : Nat) e', es[j]? = some e' → P e' → j = i

/-- The number is the position of the entry with the property; without a number there is none. -/
def PositionOf (es : List Entry) (P : Entry → Prop) (o : Option Nat) : Prop :=
  ∀ i, o = some i ↔ ∃ e, es[i]? = some e ∧ P e

theorem PositionOf.getElem?_eq_some_iff (h : PositionOf es P o) :
    o.bind (es[·]?) = some e ↔ Alone es P e := by
  constructor
  · intro ho
    obtain ⟨i, rfl, hi⟩ := Option.bind_eq_some_iff.1 ho
    obtain ⟨e', he', hP⟩ := (h i).1 rfl
    obtain rfl := Option.some.inj (hi.symm.trans he')
    exact ⟨i, hi, hP, fun j e' hj hP' => Option.some.inj ((h j).2 ⟨e', hj, hP'⟩).symm⟩
  · rintro ⟨i, hi, hP, -⟩
    rw [(h i).2 ⟨e, hi, hP⟩]
    exact hi

theorem PositionOf.find? {p : Entry → Bool} (h : PositionOf es P o)
    (hp : ∀ e, p e = true ↔ P e) : es.find? p = o.bind (es[·]?) := by
  cases hfind : es.find? p with
  | none =>
    cases o with
    | none => rfl
    | some i =>
      obtain ⟨e, hi, hP⟩ := (h i).1 rfl
      exact absurd ((hp e).2 hP) (List.find?_eq_none.1 hfind e (List.mem_of_getElem? hi))
  | some e =>
    obtain ⟨i, hi⟩ := List.getElem?_of_mem (List.mem_of_find?_eq_some hfind)
    rw [(h i).2 ⟨e, hi, (hp e).1 (List.find?_some hfind)⟩]
    exact hi.symm

theorem getElem?_concat_eq_some_iff :
    (es ++ [e])[i]? = some e' ↔ es[i]? = some e' ∨ i = es.length ∧ e = e' := by
  rw [List.getElem?_append]
  split
  · rename_i hlt
    simp only [Nat.ne_of_lt hlt, false_and, or_false]
  · rename_i hge
    rw [List.getElem?_eq_none (Nat.le_of_not_lt hge), List.getElem?_singleton]
    by_cases hi : i = es.length
    · simp [hi]
    · rw [if_neg (by omega)]
      simp [hi]

theorem PositionOf.concat_new (h : PositionOf es P none) (he : P e) :
    PositionOf (es ++ [e]) P (some es.length) := by
  intro i
  constructor
  · intro hi
    exact ⟨e, getElem?_concat_eq_some_iff.2 (.inr ⟨(Option.some.inj hi).symm, rfl⟩), he⟩
  · rintro ⟨e', hi, hP⟩
    rcases getElem?_concat_eq_some_iff.1 hi with hold | ⟨rfl, -⟩
    · exact absurd ((h i).2 ⟨e', hold, hP⟩) nofun
    · rfl

theorem PositionOf.concat_other (h : PositionOf es P o) (he : ¬ P e) :
    PositionOf (es ++ [e]) P o := by
  intro i
  rw [h i]
  constructor
  · rintro ⟨e', hi, hP⟩
    exact ⟨e', getElem?_concat_eq_some_iff.2 (.inl hi), hP⟩
  · rintro ⟨e', hi, hP⟩
    rcases getElem?_concat_eq_some_iff.1 hi with hold | ⟨-, rfl⟩
    · exact ⟨e', hold, hP⟩
    · exact absurd hP he

theorem PositionOf.set (h : PositionOf es P o) (hi : es[i]? = some e) (hP : P e' ↔ P e) :
    PositionOf (es.set i e') P o := by
  intro j
  rw [h j, List.getElem?_set]
  by_cases hij : i = j
  · subst hij
    have hlt := (List.getElem?_eq_some_iff.1 hi).1
    simp only [hi, hlt, if_true, Option.some.injEq, exists_eq_left', hP]
  · simp only [hij, if_false]

end Positions

/-! ### What is recorded once -/

/-- The entry has at least what it had: its declaration, and its size and its offset if it had
them. -/
structure Entry.Grows (e e' : Entry) : Prop where
  kind : e'.kind = e.kind
  name : e'.name = e.name
  type : e'.type = e.type
  backing : e'.backing = e.backing
  size : ∀ n, e.size = some n → e'.size = some n
  offset : ∀ o, e.offset = some o → e'.offset = some o

/-- The scope has at least what it had: its entries at their positions, and its size and its base if
it had them. -/
structure Scope.Grows (s s' : Scope) : Prop where
  entries : ∀ (i : Nat) e, s.entries[i]? = some e → ∃ e', s'.entries[i]? = some e' ∧ e.Grows e'
  size : ∀ n, s.size = some n → s'.size = some n
  base : s.placed = true → s'.placed = true ∧ s'.base = s.base

namespace Entry

variable {e e' e'' : Entry}

theorem Grows.refl (e : Entry) : e.Grows e := ⟨rfl, rfl, rfl, rfl, fun _ h => h, fun _ h => h⟩

theorem Grows.trans (h : e.Grows e') (h' : e'.Grows e'') : e.Grows e'' :=
  ⟨h'.kind.trans h.kind, h'.name.trans h.name, h'.type.trans h.type, h'.backing.trans h.backing,
    fun n hn => h'.size n (h.size n hn), fun o ho => h'.offset o (h.offset o ho)⟩

theorem setSize_eq_ok {n : Int64} (h : e.setSize n = .ok e') :
    e.size = none ∧ e' = { e with size := some n } := by
  unfold setSize at h
  split at h
  · cases h
  · rename_i hsize
    split at h
    · cases h
    · exact ⟨Option.not_isSome_iff_eq_none.1 hsize, (Except.ok.inj h).symm⟩

theorem setOffset_eq_ok {o : Int64} (h : e.setOffset o = .ok e') :
    e.offset = none ∧ e.size.isSome = true ∧ e' = { e with offset := some o } := by
  unfold setOffset at h
  split at h
  · cases h
  · rename_i hoffset
    split at h
    · cases h
    · rename_i hsize
      exact ⟨Option.not_isSome_iff_eq_none.1 hoffset,
        Option.isNone_eq_false_iff.1 (Bool.eq_false_iff.2 hsize), (Except.ok.inj h).symm⟩

theorem grows_of_setSize {n : Int64} (h : e.setSize n = .ok e') : e.Grows e' := by
  obtain ⟨hnone, rfl⟩ := setSize_eq_ok h
  exact ⟨rfl, rfl, rfl, rfl, fun k hk => (by rw [hnone] at hk; cases hk), fun _ ho => ho⟩

theorem grows_of_setOffset {o : Int64} (h : e.setOffset o = .ok e') : e.Grows e' := by
  obtain ⟨hnone, -, rfl⟩ := setOffset_eq_ok h
  exact ⟨rfl, rfl, rfl, rfl, fun _ hn => hn, fun k hk => by rw [hnone] at hk; cases hk⟩

end Entry

namespace Scope

variable {s s' s'' : Scope}

theorem Grows.refl (s : Scope) : s.Grows s :=
  ⟨fun _ e he => ⟨e, he, .refl e⟩, fun _ h => h, fun h => ⟨h, rfl⟩⟩

theorem Grows.trans (h : s.Grows s') (h' : s'.Grows s'') : s.Grows s'' where
  entries i e he := by
    obtain ⟨e', he', hg⟩ := h.entries i e he
    obtain ⟨e'', he'', hg'⟩ := h'.entries i e' he'
    exact ⟨e'', he'', hg.trans hg'⟩
  size n hn := h'.size n (h.size n hn)
  base hp := by
    obtain ⟨hp', hb⟩ := h.base hp
    obtain ⟨hp'', hb'⟩ := h'.base hp'
    exact ⟨hp'', hb'.trans hb⟩

end Scope

/-! ### Requests -/

/-- What a scope is asked to do. An entry that is added has no offset yet, and a size or none. -/
inductive ScopeRequest where
  | add (kind : EntryKind) (name : String) (type : Ty) (node : Option Backing)
      (size : Option Int64)
  | synthesize (kind : EntryKind) (type : Ty) (node : Option Backing)
  | setEntrySize (i : Nat) (n : Int64)
  | setEntryOffset (i : Nat) (offset : Int64)
  | setSize (n : Int64)
  | place (base : Int64)

def ScopeRequest.entry? : ScopeRequest → Option Entry
  | .add kind name type node size => some ⟨kind, name, type, node, size, none⟩
  | .synthesize kind type node => some (.backed kind type node)
  | _ => none

namespace Scope

variable {s s' : Scope} {r : ScopeRequest} {e : Entry}

def grant (s : Scope) : ScopeRequest → Except Fault Scope
  | .add kind name type node size => s.add ⟨kind, name, type, node, size, none⟩
  | .synthesize kind type node => s.synthesize kind type node
  | .setEntrySize i n => s.modifyEntry i (·.setSize n)
  | .setEntryOffset i offset => s.modifyEntry i (·.setOffset offset)
  | .setSize n => s.setSize n
  | .place base => s.place base

/-- The scope after a history of requests. One that faults leaves the scope as it is. -/
def after (s : Scope) : List ScopeRequest → Scope
  | [] => s
  | r :: rs =>
    match s.grant r with
    | .ok s' => s'.after rs
    | .error _ => s.after rs

theorem grant_of_entry? (h : r.entry? = some e) : s.grant r = s.add e ∧ e.offset = none := by
  cases r with
  | add => obtain rfl := Option.some.inj h; exact ⟨rfl, rfl⟩
  | synthesize => obtain rfl := Option.some.inj h; exact ⟨rfl, rfl⟩
  | _ => cases h

/-- Something that was not known is recorded, of one entry or of the scope. -/
inductive Records (s : Scope) : Scope → Prop
  | nothing : Records s s
  | entry {i : Nat} {e e' : Entry} (hi : s.entries[i]? = some e) (hg : e.Grows e')
      (hsized : (e.offset.isSome → e.size.isSome) → e'.offset.isSome → e'.size.isSome) :
      Records s { s with entries := s.entries.set i e' }
  | size {n : Option Int64} (hnew : s.size = none) : Records s { s with size := n }
  | base {base : Int64} (hnew : s.placed = false) :
      Records s { s with base := base, placed := true }

theorem records_of_modifyEntry {i : Nat} {f : Entry → Except Fault Entry}
    (hf : ∀ e e', f e = .ok e' → e.Grows e'
      ∧ ((e.offset.isSome → e.size.isSome) → e'.offset.isSome → e'.size.isSome))
    (h : s.modifyEntry i f = .ok s') : s.Records s' := by
  unfold modifyEntry at h
  split at h
  · rw [← Except.ok.inj h]
    exact .nothing
  · rename_i e hi
    cases he : f e with
    | error fault =>
      rw [he] at h
      cases h
    | ok e' =>
      rw [he] at h
      rw [← Except.ok.inj h]
      exact .entry hi (hf e e' he).1 (hf e e' he).2

theorem records_of_grant (hr : r.entry? = none) (h : s.grant r = .ok s') : s.Records s' := by
  cases r with
  | add | synthesize => cases hr
  | setEntrySize i n =>
    refine records_of_modifyEntry (fun e e' he => ⟨Entry.grows_of_setSize he, fun _ _ => ?_⟩) h
    obtain ⟨-, rfl⟩ := Entry.setSize_eq_ok he
    rfl
  | setEntryOffset i offset =>
    refine records_of_modifyEntry (fun e e' he => ⟨Entry.grows_of_setOffset he, fun _ _ => ?_⟩) h
    obtain ⟨-, hsize, rfl⟩ := Entry.setOffset_eq_ok he
    exact hsize
  | setSize n =>
    simp only [grant, setSize] at h
    split at h
    · cases h
    · rename_i hsize
      rw [← Except.ok.inj h]
      exact .size (Option.not_isSome_iff_eq_none.1 hsize)
  | place base =>
    simp only [grant, place] at h
    split at h
    · cases h
    · rename_i hplaced
      rw [← Except.ok.inj h]
      exact .base (Bool.eq_false_iff.2 hplaced)

theorem grows_append (s : Scope) (e : Entry) : s.Grows (s.append e) :=
  ⟨fun _ d hi => ⟨d, getElem?_concat_eq_some_iff.2 (.inl hi), .refl d⟩, fun _ hn => hn,
    fun hp => ⟨hp, rfl⟩⟩

theorem Records.grows (h : s.Records s') : s.Grows s' := by
  cases h with
  | nothing => exact .refl s
  | @entry i e e' hi hg =>
    refine ⟨fun j d hj => ?_, fun _ hn => hn, fun hp => ⟨hp, rfl⟩⟩
    rw [List.getElem?_set]
    by_cases hij : i = j
    · subst hij
      obtain rfl := Option.some.inj (hi.symm.trans hj)
      rw [if_pos rfl, if_pos (List.getElem?_eq_some_iff.1 hi).1]
      exact ⟨e', rfl, hg⟩
    · rw [if_neg hij]
      exact ⟨d, hj, .refl d⟩
  | size hnew =>
    exact ⟨fun _ e hi => ⟨e, hi, .refl e⟩, fun n hn => absurd (hnew.symm.trans hn) nofun,
      fun hp => ⟨hp, rfl⟩⟩
  | base hnew =>
    exact ⟨fun _ e hi => ⟨e, hi, .refl e⟩, fun _ hn => hn,
      fun hp => absurd (hnew.symm.trans hp) nofun⟩

def Sized (s : Scope) : Prop := ∀ e ∈ s.entries, e.offset.isSome → e.size.isSome

theorem Sized.append (hs : s.Sized) (he : e.offset = none) : (s.append e).Sized := by
  intro d hd hoffset
  rcases List.mem_append.1 hd with hold | hd
  · exact hs d hold hoffset
  · rw [List.mem_singleton.1 hd, he] at hoffset
    cases hoffset

theorem Sized.of_records (hs : s.Sized) (h : s.Records s') : s'.Sized := by
  cases h with
  | nothing | size | base => exact hs
  | @entry i e e' hi _ hsized =>
    intro d hd hoffset
    rcases List.mem_or_eq_of_mem_set hd with hold | rfl
    · exact hs d hold hoffset
    · exact hsized (hs e (List.mem_of_getElem? hi)) hoffset

/-- A granted request adds to what the scope had and keeps placed entries sized. -/
theorem grows_of_grant (h : s.grant r = .ok s') : s.Grows s' ∧ (s.Sized → s'.Sized) := by
  cases hr : r.entry? with
  | none =>
    have hrec := records_of_grant hr h
    exact ⟨hrec.grows, fun hs => hs.of_records hrec⟩
  | some e =>
    obtain ⟨hadd, hoffset⟩ := grant_of_entry? (s := s) hr
    rw [entries_add (hadd.symm.trans h)]
    exact ⟨s.grows_append e, fun hs => hs.append hoffset⟩

theorem grows_after (s : Scope) (rs : List ScopeRequest) :
    s.Grows (s.after rs) ∧ (s.Sized → (s.after rs).Sized) := by
  induction rs generalizing s with
  | nil => exact ⟨.refl s, id⟩
  | cons r rs ih =>
    unfold after
    split
    · rename_i s' h
      obtain ⟨hgrows, hsized⟩ := grows_of_grant h
      exact ⟨hgrows.trans (ih s').1, fun hs => (ih s').2 (hsized hs)⟩
    · exact ih s

end Scope

/-! ### The indexes -/

/-- A scope with the positions of its entries by their names, and by the nodes that they back and
their kinds. -/
structure IndexedScope where
  scope : Scope
  names : String → Option Nat
  nodes : Backing.Key × EntryKind → Option Nat

namespace IndexedScope

/-- Adds an entry at the end of the list and to one of the indexes, unless it is there already. -/
def insert (x : IndexedScope) (e : Entry) : Option Fault × IndexedScope :=
  let here := some x.scope.entries.length
  if e.name != "" then
    if (x.names e.name).isSome then (some (.declaredTwice e.name x.scope.name), x)
    else (none, { x with scope := x.scope.append e, names := Function.update x.names e.name here })
  else
    match e.backing with
    | none => (some (.noBackingNode e.kind.text), x)
    | some node =>
      if (x.nodes (node.key, e.kind)).isSome then
        (some (.synthesizedTwice e.kind.text node.text x.scope.name), x)
      else
        (none, { x with
          scope := x.scope.append e, nodes := Function.update x.nodes (node.key, e.kind) here })

/-- The indexed scope after a request, and the fault if it faulted. Only a new entry changes an
index. -/
def grant (x : IndexedScope) (r : ScopeRequest) : Option Fault × IndexedScope :=
  match r.entry? with
  | some e => x.insert e
  | none =>
    match x.scope.grant r with
    | .error f => (some f, x)
    | .ok s => (none, { x with scope := s })

def after (x : IndexedScope) (rs : List ScopeRequest) : IndexedScope :=
  rs.foldl (fun x r => (x.grant r).2) x

def ofScope (s : Scope) : IndexedScope := ⟨s, fun _ => none, fun _ => none⟩

end IndexedScope

def Entry.Declares (name : String) (e : Entry) : Prop := name ≠ "" ∧ e.name = name

def Entry.Backs (key : Backing.Key × EntryKind) (e : Entry) : Prop :=
  e.name = "" ∧ e.kind = key.2 ∧ e.backing.map Backing.key = some key.1

namespace IndexedScope

variable {x x' : IndexedScope} {e : Entry}

/-- Both indexes give the positions of the entries that they are for. -/
structure Coherent (x : IndexedScope) : Prop where
  names : ∀ name, PositionOf x.scope.entries (Entry.Declares name) (x.names name)
  nodes : ∀ key, PositionOf x.scope.entries (Entry.Backs key) (x.nodes key)

theorem Coherent.lookup (h : x.Coherent) (name : String) :
    x.scope.lookup name = (x.names name).bind (x.scope.entries[·]?) := by
  unfold Scope.lookup
  by_cases hname : name = ""
  · cases hindex : x.names name with
    | none => simp [hname]
    | some i =>
      obtain ⟨e, -, hne, -⟩ := (h.names name i).1 hindex
      exact absurd hname hne
  · rw [if_neg (by simpa using hname)]
    exact (h.names name).find? fun e => by simp [Entry.Declares, hname]

theorem Coherent.slot (h : x.Coherent) (key : Backing.Key) (kind : EntryKind) :
    x.scope.slot key kind = (x.nodes (key, kind)).bind (x.scope.entries[·]?) :=
  (h.nodes (key, kind)).find? fun e => by simp [Scope.backs, Entry.Backs, and_assoc]

/-- The indexed scope answers as the scope does: both refuse, with the same fault and nothing
changed, or both go on, with the same entries and coherent indexes. -/
inductive Agrees (x : IndexedScope) : Option Fault × IndexedScope → Except Fault Scope → Prop
  | refused {f : Fault} : Agrees x (some f, x) (.error f)
  | granted {x' : IndexedScope} (h : x'.Coherent) : Agrees x (none, x') (.ok x'.scope)

theorem Coherent.insert (h : x.Coherent) (e : Entry) :
    Agrees x (x.insert e) (x.scope.add e) := by
  unfold IndexedScope.insert Scope.add
  by_cases hname : e.name = ""
  · simp only [hname, bne_self_eq_false, Bool.false_eq_true, if_false]
    cases hbacking : e.backing with
    | none => exact .refused
    | some node =>
      simp only [h.slot node.key e.kind]
      cases hindex : x.nodes (node.key, e.kind) with
      | some i =>
        obtain ⟨e', hi, -⟩ := (h.nodes (node.key, e.kind) i).1 hindex
        simp only [Option.bind_some, hi, Option.isSome_some, if_true]
        exact .refused
      | none =>
        have hbacks : e.Backs (node.key, e.kind) := ⟨hname, rfl, by rw [hbacking]; rfl⟩
        simp only [Option.bind_none, Option.isSome_none, Bool.false_eq_true, if_false]
        refine .granted ⟨fun name => ?_, fun key => ?_⟩
        · exact (h.names name).concat_other fun hd => hd.1 (hd.2.symm.trans hname)
        · show PositionOf (x.scope.entries ++ [e]) _ (Function.update x.nodes _ _ key)
          by_cases hkey : key = (node.key, e.kind)
          · subst hkey
            rw [Function.update_self]
            exact (hindex ▸ h.nodes (node.key, e.kind)).concat_new hbacks
          · rw [Function.update_of_ne hkey]
            refine (h.nodes key).concat_other fun hb => hkey ?_
            have hnode := Option.some.inj (hb.2.2.symm.trans hbacks.2.2)
            exact Prod.ext hnode hb.2.1.symm
  · have hne : (e.name != "") = true := by simpa using hname
    simp only [hne, if_true, h.lookup e.name]
    cases hindex : x.names e.name with
    | some i =>
      obtain ⟨e', hi, -⟩ := (h.names e.name i).1 hindex
      simp only [Option.bind_some, hi, Option.isSome_some, if_true]
      exact .refused
    | none =>
      simp only [Option.bind_none, Option.isSome_none, Bool.false_eq_true, if_false]
      refine .granted ⟨fun name => ?_, fun key => ?_⟩
      · show PositionOf (x.scope.entries ++ [e]) _ (Function.update x.names _ _ name)
        by_cases hn : name = e.name
        · subst hn
          rw [Function.update_self]
          exact (hindex ▸ h.names e.name).concat_new ⟨hname, rfl⟩
        · rw [Function.update_of_ne hn]
          exact (h.names name).concat_other fun hd => hn hd.2.symm
      · exact (h.nodes key).concat_other fun hb => hname hb.1

theorem Coherent.of_records {s : Scope} (h : x.Coherent) (hs : x.scope.Records s) :
    Coherent { x with scope := s } := by
  cases hs with
  | nothing | size | base => exact ⟨h.names, h.nodes⟩
  | entry hi hg =>
    refine ⟨fun name => (h.names name).set hi ?_, fun key => (h.nodes key).set hi ?_⟩
    · simp only [Entry.Declares, hg.name]
    · simp only [Entry.Backs, hg.name, hg.kind, hg.backing]

theorem Coherent.grant (h : x.Coherent) (r : ScopeRequest) :
    Agrees x (x.grant r) (x.scope.grant r) := by
  unfold IndexedScope.grant
  cases hr : r.entry? with
  | some e =>
    rw [(Scope.grant_of_entry? hr).1]
    exact h.insert e
  | none =>
    cases hgrant : x.scope.grant r with
    | error f => exact .refused
    | ok s =>
      have hx : Coherent { x with scope := s } := h.of_records (Scope.records_of_grant hr hgrant)
      exact .granted hx

theorem Coherent.after (h : x.Coherent) (rs : List ScopeRequest) :
    (x.after rs).Coherent ∧ (x.after rs).scope = x.scope.after rs := by
  induction rs generalizing x with
  | nil => exact ⟨h, rfl⟩
  | cons r rs ih =>
    have hagree := h.grant r
    unfold Scope.after
    show ((x.grant r).2.after rs).Coherent ∧ ((x.grant r).2.after rs).scope = _
    revert hagree
    generalize x.grant r = answer
    generalize x.scope.grant r = plain
    rintro (_ | hx)
    · exact ih h
    · exact ih hx

theorem coherent_ofScope {s : Scope} (hs : s.entries = []) : (ofScope s).Coherent := by
  have hnone : ∀ P, PositionOf (ofScope s).scope.entries P none := by
    intro P i
    simp [ofScope, hs]
  exact ⟨fun name => hnone _, fun key => hnone _⟩

end IndexedScope

/-- After any history of a scope that starts empty. A look-up finds the entry that alone is declared
under a name, or that alone is the unnamed one of a kind for a node, and the two indexes lead to
the same entries; an entry that is placed has a size. Whatever follows, no entry goes away or
moves, and no size, offset or base that was recorded changes. A request that faults changes
nothing. -/
theorem scope_histories (name : String) (owner : Owner) (parent : Option ScopeId)
    (backing : Backing) (rs : List ScopeRequest) :
    let start : Scope := { name, owner, parent, backing }
    let s := start.after rs
    let x := (IndexedScope.ofScope start).after rs
    x.scope = s
    ∧ (∀ n e, s.lookup n = some e ↔ Alone s.entries (Entry.Declares n) e)
    ∧ (∀ key kind e, s.slot key kind = some e ↔ Alone s.entries (Entry.Backs (key, kind)) e)
    ∧ (∀ n, (x.names n).bind (s.entries[·]?) = s.lookup n)
    ∧ (∀ key kind, (x.nodes (key, kind)).bind (s.entries[·]?) = s.slot key kind)
    ∧ s.Sized
    ∧ (∀ more, s.Grows (s.after more))
    ∧ ∀ r f, s.grant r = .error f → x.grant r = (some f, x) := by
  intro start s x
  have hstart : start.Sized := fun e he => absurd he List.not_mem_nil
  have hsized : s.Sized := (start.grows_after rs).2 hstart
  obtain ⟨hx, hscope⟩ : x.Coherent ∧ x.scope = s :=
    (IndexedScope.coherent_ofScope (s := start) rfl).after rs
  clear_value s x
  subst hscope
  refine ⟨rfl, fun n e => ?_, fun key kind e => ?_, fun n => (hx.lookup n).symm,
    fun key kind => (hx.slot key kind).symm, hsized, fun more => (x.scope.grows_after more).1,
    fun r f hr => ?_⟩
  · rw [hx.lookup n]
    exact (hx.names n).getElem?_eq_some_iff
  · rw [hx.slot key kind]
    exact (hx.nodes (key, kind)).getElem?_eq_some_iff
  · have hagree := hx.grant r
    rw [hr] at hagree
    generalize x.grant r = answer at hagree ⊢
    cases hagree
    rfl

def placedLocal : List ScopeRequest :=
  [.add .localVar "x" (.scalar .integer) none none, .setEntrySize 0 4, .setEntryOffset 0 (-4)]

/-- The name is taken, and the entry keeps what was recorded of it. -/
theorem scope_histories_placedLocal :
    let start : Scope := ⟨"f", .function, some .global, .program 0 1, [], 0, none, false⟩
    let s := start.after placedLocal
    let x := (IndexedScope.ofScope start).after placedLocal
    let again : ScopeRequest := .add .parameter "x" (.scalar .integer) none (some 4)
    s.grant again = .error (.declaredTwice "x" "f")
    ∧ x.grant again = (some (.declaredTwice "x" "f"), x)
    ∧ Alone s.entries (Entry.Declares "x")
        ⟨.localVar, "x", .scalar .integer, none, some 4, some (-4)⟩
    ∧ s.Grows (s.after [again, .setEntrySize 0 8, .place 0]) := by
  intro start s x again
  obtain ⟨-, hlookup, -, -, -, -, hgrows, hrefused⟩ :=
    scope_histories "f" .function (some .global) (.program 0 1) placedLocal
  have hagain : s.grant again = .error (.declaredTwice "x" "f") := rfl
  exact ⟨hagain, hrefused again _ hagain, (hlookup "x" _).1 rfl, hgrows _⟩

end MoonBackend
