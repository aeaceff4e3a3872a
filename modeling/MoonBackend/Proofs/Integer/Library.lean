import MoonBackend.Proofs.Code.Printing
import MoonBackend.Proofs.Integer.Execution

/-!
# Input and output of the integer language

The calls of the library that `write` and `read` are made of. They work below the frame and in the
buffer, so the frame and its variables stay.
-/

namespace MoonBackend.Integer

open Machine Code

/-- The machine mirrors a state: its frame shows the variables, and input and output agree. -/
structure Mirrors (slots : Slots) (x : Int) (s : State) (m : Machine) : Prop where
  shows : Shows slots x s.vars m
  input : m.input = s.input
  output : m.output = s.output

def State.put (s : State) (bytes : List UInt8) : State := { s with output := s.output ++ bytes }

/-- The surroundings of the code: the stock library with a buffer below the frame. -/
structure Housed (site : Site) (slots : Slots) (x y : Int) : Prop where
  runtime : site.runtime = {}
  intstr : site.names.address? "intstr" = some 65540
  putstr : site.names.address? "putstr" = some 65544
  getstr : site.names.address? "getstr" = some 65548
  strint : site.names.address? "strint" = some 65552
  buffer : site.names.address? "buf" = some (Int32.ofInt y)
  apart : Apart slots
  size : 0 ≤ slots.size.toInt ∧ slots.size.toInt ≤ 32768
  nonneg : 0 ≤ y
  below : y + 20 ≤ x - slots.size.toInt - 12

/-- The machine gets to an address, changes at most the given registers and leaves the bytes from a
position upwards. -/
structure Keeps (site : Site) (w : List Register) (l : Int) (m : Machine) (b : Nat)
    (m' : Machine) : Prop where
  exec : Exec m m'
  on : m'.On site b
  get : ∀ q, q ∉ w → m'.get q = m.get q
  size : m'.memory.size = m.memory.size
  byte : ∀ y, 0 ≤ y → l ≤ y → m'.memory.byte y = m.memory.byte y

namespace Keeps

variable {site : Site} {w : List Register} {l : Int} {m m₁ m₂ : Machine} {a b c : Nat}

theorem trans (h : Keeps site w l m b m₁) (h' : Keeps site w l m₁ c m₂) :
    Keeps site w l m c m₂ :=
  ⟨h.exec.trans h'.exec, h'.on, fun q hq => (h'.get q hq).trans (h.get q hq), h'.size.trans h.size,
    fun y hy hl => (h'.byte y hy hl).trans (h.byte y hy hl)⟩

theorem of_computes {v : List Register} (h : Computes site v m b m₁) (hs : ∀ r ∈ v, r ∈ w) :
    Keeps site w l m b m₁ :=
  ⟨h.exec, h.on, fun q hq => h.get q fun hm => hq (hs q hm), by rw [h.memory],
    fun y _ _ => by rw [h.memory]⟩

theorem of_prints {v : List Register} {t : Int → Prop} {text : List UInt8}
    (h : Prints site v t m b text m₁) (hs : ∀ r ∈ v, r ∈ w) (ht : ∀ y, 0 ≤ y → l ≤ y → ¬ t y) :
    Keeps site w l m b m₁ :=
  ⟨h.exec, h.on, fun q hq => h.get q fun hm => hq (hs q hm), h.size,
    fun y hy hl => h.byte y hy (ht y hy hl)⟩

end Keeps

section
variable {site : Site} {slots : Slots} {x y : Int} {s : State} {m : Machine} {a : Nat}

def scratch : List Register := [first, stack, link, result]

theorem Mirrors.of_keeps (hh : Housed site slots x y) (h : Mirrors slots x s m) {b : Nat}
    {m' : Machine} (hk : Keeps site scratch (x + 4 - slots.size.toInt) m b m')
    (hs : m'.get stack = Int32.ofInt x) {input : List UInt8} {output : Array UInt8}
    (hi : m'.input = input) (ho : m'.output = output) :
    Mirrors slots x { s with input := input, output := output } m' := by
  refine ⟨⟨?_, hs, h.shows.inside.of_size hk.size, ?_⟩, hi, ho⟩
  · rw [hk.get zero (by decide)]
    exact h.shows.zero
  · intro n o hno
    have hf := hh.apart.var n o hno
    have hin := h.shows.word hf
    obtain ⟨h0, -, -⟩ := hf
    rw [← h.shows.vars n o hno]
    refine Memory.word_congr fun z hz hz' => hk.byte z ?_ ?_
    · have := hin.nonneg
      omega
    · omega

theorem inside_below (hh : Housed site slots x y) (h : Mirrors slots x s m) :
    m.memory.Inside (x - slots.size.toInt - 12) 12 := by
  have h1 := h.shows.inside.upper
  have h2 := hh.size
  have h3 := hh.nonneg
  have h4 := hh.below
  exact ⟨by omega, by omega, h.shows.inside.small⟩

theorem inside_buffer (hh : Housed site slots x y) (h : Mirrors slots x s m) {n : Nat}
    (hn : n ≤ 20) : m.memory.Inside y n := by
  have h1 := h.shows.inside.upper
  have h2 := hh.size
  have h4 := hh.below
  exact ⟨hh.nonneg, by omega, h.shows.inside.small⟩

structure Enters (site : Site) (f : Routine) (z : Int) (v : Int32) (m : Machine) (b : Nat)
    (m' : Machine) : Prop where
  exec : Exec m m'
  calls : m'.Calls site f b
  get : ∀ q, q ≠ link → m'.get q = m.get q
  memory : m'.memory = m.memory.setWord (z - 8) v
  input : m'.input = m.input
  output : m'.output = m.output

theorem Enters.size {f : Routine} {z : Int} {v : Int32} {b : Nat} {m' : Machine}
    (h : Enters site f z v m b m') : m'.memory.size = m.memory.size := by
  rw [h.memory, Memory.size_setWord]

theorem Keeps.of_returned {f : Routine} {z : Int} {v : Int32} {m₁ m₂ : Machine} {b : Nat}
    (he : Enters site f z v m b m₁) (hin : m.memory.Inside (z - 8) 4) (hr : Returned site m₁ b m₂)
    (hsize : m₂.memory.size = m₁.memory.size)
    (hbyte : ∀ u, 0 ≤ u → z ≤ u → m₂.memory.byte u = m₁.memory.byte u) :
    Keeps site scratch z m b m₂ := by
  refine ⟨he.exec.trans hr.exec, hr.on, fun q hq => ?_, hsize.trans he.size, fun u hu hl => ?_⟩
  · have hq' : q ≠ result ∧ q ≠ link := by
      constructor
      · rintro rfl
        exact hq (by decide)
      · rintro rfl
        exact hq (by decide)
    rw [hr.get q hq'.1, he.get q hq'.2]
  · rw [hbyte u hu hl, he.memory, Memory.byte_setWord_of_ne v hin hu (by omega)]

structure Buffered (y : Int) (text : List UInt8) (mem : Memory) : Prop where
  inside : mem.Inside y 20
  short : text.length < 20
  spells : mem.Spells y text

theorem Buffered.setWord {text : List UInt8} {mem : Memory} (h : Buffered y text mem) {z : Int}
    {v : Int32} (hin : mem.Inside z 4) (hz : y + 20 ≤ z) : Buffered y text (mem.setWord z v) := by
  have hy := h.inside.nonneg
  have hs := h.short
  refine ⟨h.inside.of_size (by simp), hs, Memory.spells_congr h.spells fun u h0 h1 => ?_⟩
  exact Memory.byte_setWord_of_ne v hin (by omega) (by omega)

theorem exec_pass {z : Int} {r : Register} {name : String} {f : Routine}
    (hon : m.On site a) (h1 : site.HoldsItem a (.sw (-8) stack r))
    (h2 : site.HoldsItem (a + 4) (.jl link name)) (hs : m.get stack = Int32.ofInt z)
    (hin : m.memory.Inside (z - 8) 4)
    (hf : (site.names.address? name).bind site.runtime.routine? = some f) :
    ∃ m', Enters site f z (m.get r) m (a + 8) m' := by
  obtain ⟨m₁, r1, hg1⟩ := hon.exec_param (w := []) h1 hs hin
  obtain ⟨m₂, e2, hc, hg2, hm2, hi2, ho2⟩ := r1.on.exec_toRoutine h2 hf
  exact ⟨m₂, r1.exec.trans e2, hc, fun q hq => (hg2 q hq).trans (hg1 q), hm2.trans r1.memory,
    hi2.trans r1.input, ho2.trans r1.output⟩

theorem exec_getstr (hh : Housed site slots x y) {z : Int} (hz : z = x - slots.size.toInt)
    (hon : m.On site a) (h1 : site.HoldsItem a (.sw (-8) stack first))
    (h2 : site.HoldsItem (a + 4) (.jl link "getstr")) (hs : m.get stack = Int32.ofInt z)
    (hin : m.memory.Inside (z - 8) 4) (hf : m.get first = Int32.ofInt y)
    (hbuf : m.memory.Inside y 20) :
    ∃ m', Keeps site scratch z m (a + 8) m' ∧ m'.get stack = Int32.ofInt z
      ∧ Buffered y (((chomp (splitLine m.input).1).take 19).takeWhile (· != 0)) m'.memory
      ∧ m'.input = (splitLine m.input).2 ∧ m'.output = m.output := by
  have hgap := hh.below
  obtain ⟨m₁, he⟩ := exec_pass hon h1 h2 hs hin (f := .readString)
    (by rw [hh.getstr, hh.runtime]; decide)
  have hlen : ((chomp (splitLine m₁.input).1).take 19).length ≤ 19 := by
    rw [List.length_take]
    omega
  have hbuf' : m₁.memory.Inside y 20 := hbuf.of_size he.size
  have hline : (chomp (splitLine m₁.input).1).take (site.runtime.bufferSize - 1).toNatClampNeg
      = (chomp (splitLine m₁.input).1).take 19 := by
    rw [hh.runtime]
    rfl
  have hword : m₁.memory.word (z - 8) = Int32.ofInt y := by
    rw [he.memory, Memory.word_setWord_self _ hin, hf]
  have hstack : m₁.get stack = Int32.ofInt z := (he.get _ (by decide)).trans hs
  obtain ⟨m₂, hr, hw, hi2, ho2⟩ := he.calls.exec_readString (x := z) (y := y) hstack
    (by rw [hh.runtime]; exact hin.of_size he.size) (by rw [hh.runtime]; exact hword)
    (by rw [hh.runtime]; decide) hline (hbuf'.mono (by omega) (by omega))
  refine ⟨m₂, .of_returned he hin hr hw.size fun u h0 h1 => hw.byte u h0 (.inr ?_),
    (hr.get _ (by decide)).trans hstack, ⟨hbuf'.of_size hw.size, ?_, ?_⟩, ?_, ?_⟩
  · omega
  · rw [← he.input]
    have hle := (List.takeWhile_prefix (· != 0) (l := (chomp (splitLine m₁.input).1).take 19)).length_le
    omega
  · rw [← he.input]
    exact hw.spells
  · rw [hi2, he.input]
  · rw [ho2, he.output]

theorem exec_strint (hh : Housed site slots x y) {z : Int} (hz : z = x - slots.size.toInt)
    (hon : m.On site a) (h1 : site.HoldsItem a (.sw (-8) stack first))
    (h2 : site.HoldsItem (a + 4) (.jl link "strint")) (hs : m.get stack = Int32.ofInt z)
    (hin : m.memory.Inside (z - 8) 4) (hf : m.get first = Int32.ofInt y)
    {text : List UInt8} (hbuf : Buffered y text m.memory) :
    ∃ m', Keeps site scratch z m (a + 8) m' ∧ m'.get stack = Int32.ofInt z
      ∧ m'.get result = numberIn text ∧ m'.input = m.input ∧ m'.output = m.output := by
  have hgap := hh.below
  obtain ⟨m₁, he⟩ := exec_pass hon h1 h2 hs hin (f := .stringToInt)
    (by rw [hh.strint, hh.runtime]; decide)
  have hbuf' : Buffered y text m₁.memory := by
    rw [he.memory]
    exact hbuf.setWord hin (by omega)
  have hshort := hbuf'.short
  have hword : m₁.memory.word (z - 8) = Int32.ofInt y := by
    rw [he.memory, Memory.word_setWord_self _ hin, hf]
  have hstack : m₁.get stack = Int32.ofInt z := (he.get _ (by decide)).trans hs
  obtain ⟨m₂, hr, hres, hm2, hi2, ho2⟩ := he.calls.exec_stringToInt (x := z) (y := y) hstack
    (by rw [hh.runtime]; exact hin.of_size he.size) (by rw [hh.runtime]; exact hword)
    hbuf'.spells (hbuf'.inside.mono (by omega) (by omega))
  refine ⟨m₂, .of_returned he hin hr (by rw [hm2]) fun u _ _ => by rw [hm2],
    (hr.get _ (by decide)).trans hstack, hres, ?_, ?_⟩
  · rw [hi2, he.input]
  · rw [ho2, he.output]

theorem readyToPrint (hh : Housed site slots x y) (h : Mirrors slots x s m) (hon : m.On site a) :
    ReadyToPrint site slots.size x y m a := by
  have hbelow := inside_below hh h
  have hgap := hh.below
  refine ⟨⟨by rw [hh.runtime]; exact hh.buffer, ?_, ?_⟩, hon, h.shows.zero, h.shows.stack, ?_⟩
  · rw [hh.runtime]
    exact Option.bind_eq_some_iff.2 ⟨_, hh.intstr, by decide⟩
  · rw [hh.runtime]
    exact Option.bind_eq_some_iff.2 ⟨_, hh.putstr, by decide⟩
  · rw [hh.runtime]
    have hvalue : ({} : Runtime).valueParam.toInt = -8 := rfl
    have hbuffer : ({} : Runtime).bufferParam.toInt = -12 := rfl
    refine ⟨hbelow.mono ?_ ?_, hbelow.mono ?_ ?_, inside_buffer hh h (by decide), ?_, ?_⟩
    all_goals omega

theorem Mirrors.of_prints (hh : Housed site slots x y) (h : Mirrors slots x s m) {b : Nat}
    {text : List UInt8} {m' : Machine}
    (hp : Prints site [first, result, link] (CallBytes site.runtime (x - slots.size.toInt) y) m b text
      m') : Mirrors slots x (s.put text) m' := by
  have hgap := hh.below
  refine h.of_keeps hh (.of_prints hp (by decide) fun u _ hu => ?_) ?_ (hp.input.trans h.input) ?_
  · rw [hh.runtime]
    have hvalue : ({} : Runtime).valueParam.toInt = -8 := rfl
    have hbuffer : ({} : Runtime).bufferParam.toInt = -12 := rfl
    unfold CallBytes
    omega
  · exact (hp.get _ (by decide)).trans h.shows.stack
  · rw [hp.output, h.output]

theorem exec_printCode (hh : Housed site slots x y) (h : Mirrors slots x s m) (hon : m.On site a)
    {p : Place} (hcode : site.Holds a (printCode slots.size p)) (hp : PlaceInside m.memory x p)
    {v : Int32} (hv : placeValue m.memory x p = v) :
    ∃ m', Exec m m' ∧ m'.On site (a + size (printCode slots.size p))
      ∧ Mirrors slots x (s.put (Text.textBytes (Text.decimal v.toInt))) m' := by
  have hprint : printCode slots.size p = loadCode first p ++ numberCode site.runtime slots.size first := by
    rw [hh.runtime]
    rfl
  rw [hprint, Site.holds_append] at hcode
  obtain ⟨m₁, c1, hv1⟩ := exec_loadCode hon hcode.1 h.shows.zero h.shows.stack hp (by decide)
  have hfirst : Free first := by decide
  have p1 : Prints site [first, result, link] (CallBytes site.runtime (x - slots.size.toInt) y) m _ []
      m₁ := (Prints.of_computes c1).mono (by simp)
  obtain ⟨m₂, p2⟩ := ((readyToPrint hh h hon).after hfirst p1).exec_numberCode hcode.2 hfirst
  rw [hv1, hv] at p2
  have p12 := p1.trans p2
  refine ⟨m₂, p12.exec, ?_, h.of_prints hh p12⟩
  rw [hprint, size_append, ← Nat.add_assoc]
  exact p12.on

theorem exec_newlineCode (hh : Housed site slots x y) (h : Mirrors slots x s m) (hon : m.On site a)
    (hcode : site.Holds a newlineCode) :
    ∃ m', Exec m m' ∧ m'.On site (a + size newlineCode) ∧ Mirrors slots x (s.put [10]) m' := by
  have hbytes : site.Holds a (bytesCode first [10]) := hcode
  obtain ⟨m', p⟩ := (readyToPrint hh h hon).exec_bytesCode hbytes (by decide)
  rw [flatMap_shownByte_feed] at p
  exact ⟨m', p.exec, p.on, h.of_prints hh p⟩

theorem Mirrors.exec_sw (ha : Apart slots) (h : Mirrors slots x s m) (hon : m.On site a)
    {o : Int64} {r : Register} {name : String} (hi : site.HoldsItem a (.sw o stack r))
    (ho : slots.var name = some o) :
    ∃ m', Exec m m' ∧ m'.On site (a + 4) ∧ Mirrors slots x (s.assign name (m.get r)) m' := by
  have hf := ha.var name o ho
  have hin := h.shows.word hf
  have e1 := hon.exec_sw hi h.shows.stack hin
  refine ⟨_, e1, hon.poke _ _ _, ⟨h.shows.zero, h.shows.stack, ?_, ?_⟩, h.input, h.output⟩
  · rw [memory_poke]
    exact h.shows.inside.of_size (by simp)
  · intro n o' ho'
    rw [memory_poke]
    simp only [State.assign]
    by_cases hn : n = name
    · subst hn
      obtain rfl := Option.some.inj (ho.symm.trans ho')
      rw [Memory.word_setWord_self _ hin, if_pos rfl]
    · have hoo : o ≠ o' := by
        rintro rfl
        exact hn (ha.vars n name o ho' ho)
      have hne : o.toInt ≠ o'.toInt := fun he => hoo (Int64.toInt_inj.1 he)
      have hf' := ha.var n o' ho'
      have h1 := hf.2.2
      have h2 := hf'.2.2
      rw [if_neg hn, Memory.word_setWord_of_disjoint _ hin (h.shows.word hf').nonneg (by omega)]
      exact h.shows.vars n o' ho'

theorem exec_readCode (hh : Housed site slots x y) (h : Mirrors slots x s m) (hon : m.On site a)
    {o : Int64} {name : String} (ho : slots.var name = some o)
    (hcode : site.Holds a (readCode slots.size o)) :
    ∃ m', Exec m m' ∧ m'.On site (a + size (readCode slots.size o))
      ∧ Mirrors slots x (s.read name) m' := by
  simp only [readCode, plain, List.map, List.cons_append, List.nil_append, Site.holds_plain,
    Item.size_imm, Item.size_sw, Item.size_named, Item.size_jl] at hcode
  obtain ⟨h1, h2, h3, h4, h5, h6, h7, h8, h9, -⟩ := hcode
  have hl := (readyToPrint hh h hon).library
  have hlabel : site.runtime.bufferLabel = "buf" := by rw [hh.runtime]
  rw [← hlabel] at h2 h5
  have hparam : m.memory.Inside (x - slots.size.toInt - 8) 4 :=
    (inside_below hh h).mono (by omega) (by omega)
  obtain ⟨m₁, c1, hs1⟩ := hon.exec_lower h1 h.shows.stack
  have hzero : m₁.get zero = 0 := (c1.get _ (by decide)).trans h.shows.zero
  obtain ⟨m₂, c2, hf2⟩ := c1.on.exec_buffer hl h2 hzero (by decide)
  have hmem : m₂.memory = m.memory := by rw [c2.memory, c1.memory]
  have k2 : Keeps site scratch (x - slots.size.toInt) m _ m₂ :=
    (Keeps.of_computes c1 (by decide)).trans (.of_computes c2 (by decide))
  obtain ⟨m₃, k3, hs3, hb3, hi3, ho3⟩ := exec_getstr hh rfl k2.on h3 h4
    ((c2.get _ (by decide)).trans hs1) (by rw [hmem]; exact hparam) hf2
    (by rw [hmem]; exact inside_buffer hh h (by decide))
  rw [c2.input, c1.input, h.input] at hb3 hi3
  obtain ⟨m₄, c4, hf4⟩ := k3.on.exec_buffer hl h5
    (((k2.trans k3).get _ (by decide)).trans h.shows.zero) (by decide)
  have hs4 : m₄.get stack = Int32.ofInt (x - slots.size.toInt) := (c4.get _ (by decide)).trans hs3
  obtain ⟨m₅, k5, hs5, hr5, hi5, ho5⟩ := exec_strint hh rfl c4.on h6 h7 hs4
    (hparam.of_size (by rw [c4.memory, k3.size, hmem])) hf4 (by rw [c4.memory]; exact hb3)
  obtain ⟨m₆, c6, hs6⟩ := k5.on.exec_raise h8 hs5
  have k := ((k2.trans k3).trans (.of_computes c4 (by decide))).trans
    (k5.trans (.of_computes c6 (by decide)))
  have hin : m₆.input = (splitLine s.input).2 := by rw [c6.input, hi5, c4.input, hi3]
  have hout : m₆.output = s.output := by
    rw [c6.output, ho5, c4.output, ho3, c2.output, c1.output, h.output]
  have hm := h.of_keeps hh ⟨k.exec, k.on, k.get, k.size, fun u h0 h1 => k.byte u h0 (by omega)⟩ hs6
    hin hout
  obtain ⟨m₇, e7, hon7, hm7⟩ := hm.exec_sw hh.apart k.on h9 ho
  refine ⟨m₇, k.exec.trans e7, hon7, ?_⟩
  rw [c6.get _ (by decide), hr5] at hm7
  exact hm7

end

end MoonBackend.Integer
