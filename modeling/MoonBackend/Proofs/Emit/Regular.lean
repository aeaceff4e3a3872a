import MoonBackend.Proofs.Emit.Straight

/-!
# Emitted lines refer to each other

Emitted code is made of instructions that can be written down. A branch or jump names a label of the
same function, the calls follow the calls of the body in the order in which they are evaluated, and
no other instruction names anything but the buffer.
-/

namespace MoonBackend

namespace Emit

open Text Code

variable {c : Context} {labels : List String} {code : Code}

/-! ### Texts -/

theorem UnaryOp.oneLine_text (op : UnaryOp) : OneLine op.text := by
  cases op <;> decide

theorem BinaryOp.oneLine_text (op : BinaryOp) : OneLine op.text := by
  cases op <;> decide

mutual

theorem Evaluates.oneLine_text {use : Use} {path : Path} {e : Expr} {code : Code} :
    Evaluates c use path e code → OneLiners e.names → OneLine e.text
  | .int v, _ => oneLine_decimal _
  | .float hparse _ _ _ _, _ => Decimal.oneLine_of_parse hparse
  | .variable _ _, hn | .own _, hn | .member _ _, hn => hn _ List.mem_cons_self
  | .dot hleft, hn | .dotValue hleft _, hn => by
    rw [Expr.names, oneLiners_append] at hn
    rw [Expr.text, oneLine_append, oneLine_append]
    exact ⟨⟨hleft.oneLine_text hn.1, by decide⟩, hn.2 _ List.mem_cons_self⟩
  | .index hbase hindices, hn | .indexValue hbase hindices _, hn => by
    rw [Expr.names, oneLiners_append] at hn
    rw [Expr.text, oneLine_append]
    refine ⟨hbase.oneLine_text hn.1, oneLine_join fun s hs => ?_⟩
    obtain ⟨text, htext, rfl⟩ := List.mem_map.1 hs
    rw [oneLine_append, oneLine_append]
    exact ⟨⟨by decide, hindices.oneLine_texts hn.2 text htext⟩, by decide⟩
  | .unary hop _ _, hn => by
    have htext := hop.oneLine_text hn
    rw [Expr.text]
    split <;> simp only [oneLine_append]
    · exact ⟨⟨by decide, htext⟩, by decide⟩
    · exact ⟨⟨⟨by decide, UnaryOp.oneLine_text _⟩, htext⟩, by decide⟩
  | .binary hleft _ hright _ _, hn => by
    rw [Expr.names, oneLiners_append] at hn
    simp only [Expr.text, oneLine_append]
    exact ⟨⟨⟨⟨⟨⟨by decide, hleft.oneLine_text hn.1⟩, by decide⟩, BinaryOp.oneLine_text _⟩, by decide⟩,
      hright.oneLine_text hn.2⟩, by decide⟩
  | .call hmissing hargs _, hn => by
    rw [Expr.names, oneLiners_append, oneLiners_cons] at hn
    simp only [Expr.text, hmissing, if_true, oneLine_append]
    exact ⟨⟨⟨hn.2.1, by decide⟩, oneLine_intercalate (hargs.oneLine_texts hn.2.2)⟩, by decide⟩
  | .callOn hmissing hrecv hargs _, hn => by
    rw [Expr.names, oneLiners_append, oneLiners_cons] at hn
    simp only [Expr.text, hmissing, Bool.false_eq_true, if_false, oneLine_append]
    exact ⟨⟨⟨⟨⟨hrecv.oneLine_text hn.1, by decide⟩, hn.2.1⟩, by decide⟩,
      oneLine_intercalate (hargs.oneLine_texts hn.2.2)⟩, by decide⟩

theorem EvaluatesAll.oneLine_texts {path : Path} {i : ℕ} {es : List Expr} {code : Code}
    {places : List Place} : EvaluatesAll c path i es code places → OneLiners (Expr.namesOf es) →
    ∀ s ∈ Expr.texts es, OneLine s
  | .nil, _ => by simp [Expr.texts]
  | .cons he _ hes, hn => by
    rw [Expr.namesOf, oneLiners_append] at hn
    rw [Expr.texts, List.forall_mem_cons]
    exact ⟨he.oneLine_text hn.1, hes.oneLine_texts hn.2⟩

end

/-! ### Calls and expressions -/

theorem Binary.regular {path : Path} {e : Expr} {op : BinaryOp} {t : Ty} {l r : Place}
    (h : Binary c path e op t l r code) (htext : OneLine e.text) (hl : labelNames code ⊆ labels) :
    Regular c labels [] code := by
  cases h with
  | float _ _ _ _ hlm hle hrm hre =>
    simp only [labelNames_append, List.append_subset] at hl
    refine (Regular.note ?_).append (Steady.regular ?_)
    · rw [oneLine_append]
      exact ⟨by decide, htext⟩
    · simp only [steady_append, hlm.straight.steady, hle.straight.steady, hrm.straight.steady,
        hre.straight.steady, steady_sumCode hl.2.2]
      split <;> simp +decide
  | integer _ _ _ _ _ hleft hright =>
    refine Straight.regular ?_
    simp +decide [hleft.straight, hright.straight, straight_integerOperation]

/-- No function is entered at the name of an entry of the library. -/
def OwnTags (c : Context) : Prop :=
  ∀ k < c.layout.table.program.functions.length, c.tags.getD k "" ∉ c.config.runtime.entries

theorem Calls.regular {path : Path} {e recv : Expr} {isNew : Bool} {k : ℕ} {args : List Place}
    (h : Calls c path e recv isNew k args code) (htags : OwnTags c) (htext : OneLine e.text) :
    Regular c labels [k] code := by
  obtain ⟨-, hk, -, -, hsaved, hpassed, hreceiver, hresult⟩ := h
  have hjump : ∀ size, Regular c labels [k] (jumpCode c size k) := fun size => by
    have hlt := (List.getElem?_eq_some_iff.1 hk).1
    have hcall : Regular c labels [k] (plain [.jl c.link (c.tags.getD k "")]) :=
      .call (htags k hlt) hlt
    have haddi : ∀ n, Regular c labels [] (plain [.imm .addi c.sp c.sp n]) := fun n =>
      Straight.regular (by simp +decide)
    exact (haddi _).before (hcall.after (haddi _))
  refine Regular.after (Regular.before ?_ (hjump _)) hresult.straight.regular
  refine (Regular.note ?_).before (Straight.regular ?_) |>.after hpassed.straight.regular
    |>.after hreceiver.straight.regular
  · rw [oneLine_append]
    exact ⟨by decide, htext⟩
  · exact hsaved.straight

mutual

theorem Evaluates.regular {use : Use} {path : Path} {e : Expr} {code : Code}
    (h : Evaluates c use path e code) (htags : OwnTags c) (hn : OneLiners e.names)
    (hl : labelNames code ⊆ labels) : Regular c labels e.callees code := by
  have htext := h.oneLine_text hn
  match h with
  | .int _ | .variable _ _ | .own _ => exact .nil
  | .float _ _ _ hmantissa hexponent =>
    refine Straight.regular ?_
    simp +decide [hmantissa.straight, hexponent.straight]
  | .member _ hmat => exact hmat.straight.regular
  | .dot hleft =>
    rw [Expr.names, oneLiners_append] at hn
    rw [Expr.callees]
    exact hleft.regular htags hn.1 hl
  | .dotValue hleft hmat =>
    rw [Expr.names, oneLiners_append] at hn
    rw [labelNames_append, List.append_subset] at hl
    exact (hleft.regular htags hn.1 hl.1).after hmat.straight.regular
  | .index hbase hindices =>
    rw [Expr.names, oneLiners_append] at hn
    rw [labelNames_append, List.append_subset] at hl
    exact (hbase.regular htags hn.1 hl.1).append (hindices.regular htags hn.2 hl.2)
  | .indexValue hbase hindices hmat =>
    rw [Expr.names, oneLiners_append] at hn
    simp only [labelNames_append, List.append_subset] at hl
    exact ((hbase.regular htags hn.1 hl.1.1).append
      (hindices.regular htags hn.2 hl.1.2)).after hmat.straight.regular
  | .unary hop _ hunary =>
    rw [labelNames_append, List.append_subset] at hl
    exact (hop.regular htags hn hl.1).after hunary.straight.regular
  | .binary hleft _ hright _ hbinary =>
    rw [Expr.names, oneLiners_append] at hn
    simp only [labelNames_append, List.append_subset] at hl
    exact ((hleft.regular htags hn.1 hl.1.1).append
      (hright.regular htags hn.2 hl.1.2)).after (hbinary.regular htext hl.2)
  | .call hmissing hargs hcall =>
    obtain rfl := Expr.eq_missing hmissing
    rw [Expr.names, oneLiners_append, oneLiners_cons] at hn
    rw [labelNames_append, List.append_subset] at hl
    exact (hargs.regular htags hn.2.2 hl.1).append (hcall.regular htags htext)
  | .callOn _ hrecv hargs hcall =>
    rw [Expr.names, oneLiners_append, oneLiners_cons] at hn
    simp only [labelNames_append, List.append_subset] at hl
    exact ((hrecv.regular htags hn.1 hl.1.1).append
      (hargs.regular htags hn.2.2 hl.1.2)).append (hcall.regular htags htext)

theorem EvaluatesAll.regular {path : Path} {i : ℕ} {es : List Expr} {code : Code}
    {places : List Place} (h : EvaluatesAll c path i es code places) (htags : OwnTags c)
    (hn : OneLiners (Expr.namesOf es)) (hl : labelNames code ⊆ labels) :
    Regular c labels (Expr.calleesOf es) code := by
  match h with
  | .nil => exact .nil
  | .cons he _ hes =>
    rw [Expr.namesOf, oneLiners_append] at hn
    rw [labelNames_append, List.append_subset] at hl
    exact (he.regular htags hn.1 hl.1).append (hes.regular htags hn.2 hl.2)

end

/-! ### Statements and functions -/

theorem Tests.regular {path : Path} {cond : Expr} {label : String} (h : Tests c path cond label code)
    (htags : OwnTags c) (hn : OneLiners cond.names) (hl : labelNames code ⊆ labels)
    (hlabel : label ∈ labels) : Regular c labels cond.callees code := by
  obtain ⟨hcond, -, -, hload⟩ := h
  rw [labelNames_append, List.append_subset] at hl
  refine (hcond.regular htags hn hl.1).after (Steady.regular ?_)
  rw [steady_append]
  exact ⟨hload.straight.steady, by simpa using Item.steady_bz hlabel⟩

theorem Tests.oneLine_text {path : Path} {cond : Expr} {label : String}
    (h : Tests c path cond label code) (hn : OneLiners cond.names) : OneLine cond.text := by
  obtain ⟨hcond, -, -, -⟩ := h
  exact hcond.oneLine_text hn

theorem regular_printCode (size : Int64) (r : Register) :
    Regular c labels [] (printCode c size r) := by
  have hvalue : Straight c (plain [.imm .addi c.sp c.sp (-size), .sw c.config.runtime.valueParam c.sp r,
      .named .addi r c.nought c.config.runtime.bufferLabel,
      .sw c.config.runtime.bufferParam c.sp r]) := by simp +decide
  have hresult : Straight c (plain [.sw c.config.runtime.valueParam c.sp c.result]) := by simp
  have hback : Straight c (plain [.imm .addi c.sp c.sp size]) := by simp +decide
  exact ((hvalue.regular.append (.library (by simp [Runtime.entries]))).append
    (hresult.regular.append (.library (by simp [Runtime.entries])))).append hback.regular

theorem regular_readCode (size : Int64) (r : Register) :
    Regular c labels [] (readCode c size r) := by
  have hbuffer : Straight c (plain [.named .addi r c.nought c.config.runtime.bufferLabel,
      .sw c.config.runtime.valueParam c.sp r]) := by simp
  have hdown : Straight c (plain [.imm .addi c.sp c.sp (-size)]) := by simp +decide
  have hback : Straight c (plain [.imm .addi c.sp c.sp size]) := by simp +decide
  exact ((hdown.regular.append (hbuffer.regular.append (.library (by simp [Runtime.entries])))).append
    (hbuffer.regular.append (.library (by simp [Runtime.entries])))).append hback.regular

theorem PrintsWord.regular {p : Place} {i : Int64} (h : PrintsWord c p i code) :
    Regular c labels [] code := by
  obtain ⟨-, -, hload⟩ := h
  exact hload.straight.regular.append (regular_printCode _ _)

theorem PrintsValue.regular {t : Ty} {p : Place} (h : PrintsValue c t p code) :
    Regular c labels [] code := by
  cases h with
  | integer _ h => exact h.regular
  | float _ hm hs he => exact (hm.regular.append hs.straight.regular).append he.regular

theorem Regular.choice {condition yes no : Code} {first second third : List Nat}
    {elseLabel endLabel : String} (h : Regular c labels first condition)
    (hyes : Regular c labels second yes) (hno : Regular c labels third no)
    (hl : endLabel ∈ labels) :
    Regular c labels (first ++ second ++ third) (choice condition yes no elseLabel endLabel) := by
  have hjump : Steady c labels (plain [.j endLabel] ++ [mark elseLabel]) := by
    simp [Code.mark, hl]
  have hend : Steady c labels [mark endLabel] := by simp [Code.mark]
  have := ((h.append hyes).append (hjump.regular.append hno)).append hend.regular
  simpa [Emit.choice] using this

theorem labelNames_choice_subset {test yes no : Code} {text elseLabel endLabel : String} :
    labelNames (choice (c.note text ++ test) yes no elseLabel endLabel) ⊆ labels ↔
      labelNames test ⊆ labels ∧ labelNames yes ⊆ labels ∧ labelNames no ⊆ labels
        ∧ elseLabel ∈ labels ∧ endLabel ∈ labels := by
  have hnote : labelNames (c.note text) = [] := labelNames_note _ _
  simp only [choice, Code.mark, labelNames_append, hnote, labelNames_plain, labelNames_labeled,
    labelNames_nil, List.append_subset, List.cons_subset, List.nil_subset, and_true, true_and]
  tauto

theorem Regular.start {start text : String} (hs : OneLine start) (ht : OneLine text) :
    Regular c labels [] (c.note (start ++ text)) := .note (oneLine_append.2 ⟨hs, ht⟩)

mutual

theorem Runs.regular {path : Path} {st : Stmt} {code : Code} (h : Runs c path st code)
    (htags : OwnTags c) (hn : OneLiners st.names) (hl : labelNames code ⊆ labels)
    (hexit : c.exit ∈ labels) : Regular c labels st.callees code := by
  match h with
  | .declare hmissing =>
    obtain rfl := Expr.eq_missing hmissing
    exact .nil
  | .define _ hinit _ _ _ _ _ hmove =>
    rw [Stmt.names, oneLiners_append, VarDecl.names, oneLiners_cons] at hn
    simp only [labelNames_append, List.append_subset] at hl
    refine ((Regular.note ?_).before (hinit.regular htags hn.2 hl.1.2)).after hmove.straight.regular
    simp only [oneLine_append]
    exact ⟨⟨hn.1.1, by decide⟩, hinit.oneLine_text hn.2⟩
  | .assign htarget hsource _ hloc _ _ _ hmove =>
    rw [Stmt.names, oneLiners_append] at hn
    simp only [labelNames_append, List.append_subset] at hl
    refine ((((Regular.note ?_).before (htarget.regular htags hn.1 hl.1.1.1.2)).append
      (hsource.regular htags hn.2 hl.1.1.2)).after hloc.straight.regular).after
        hmove.straight.regular
    simp only [oneLine_append]
    exact ⟨⟨htarget.oneLine_text hn.1, by decide⟩, hsource.oneLine_text hn.2⟩
  | .when htest hbody =>
    rw [Stmt.names, oneLiners_append] at hn
    rw [labelNames_choice_subset] at hl
    obtain ⟨htestl, hbodyl, -, helse, hend⟩ := hl
    have hnote : Regular c labels [] (c.note ("if " ++ _)) :=
      .start (by decide) (htest.oneLine_text hn.1)
    rw [Stmt.callees, ← List.append_nil (_ ++ _)]
    exact (hnote.before (htest.regular htags hn.1 htestl helse)).choice
      (hbody.regular htags hn.2 hbodyl hexit) .nil hend
  | .branch htest hyes hno =>
    rw [Stmt.names, oneLiners_append, oneLiners_append] at hn
    rw [labelNames_choice_subset] at hl
    obtain ⟨htestl, hyesl, hnol, helse, hend⟩ := hl
    have hnote : Regular c labels [] (c.note ("if " ++ _)) :=
      .start (by decide) (htest.oneLine_text hn.1.1)
    exact (hnote.before (htest.regular htags hn.1.1 htestl helse)).choice
      (hyes.regular htags hn.1.2 hyesl hexit) (hno.regular htags hn.2 hnol hexit) hend
  | .loop htest hbody =>
    rw [Stmt.names, oneLiners_append] at hn
    simp only [labelNames_append, List.append_subset] at hl
    obtain ⟨⟨⟨⟨⟨-, htop⟩, htestl⟩, hbodyl⟩, -⟩, hstop⟩ := hl
    replace htop := htop List.mem_cons_self
    replace hstop := hstop List.mem_cons_self
    have hnote : Regular c labels [] (c.note ("while " ++ _)) :=
      .start (by decide) (htest.oneLine_text hn.1)
    have hmark : ∀ label, Regular c labels [] [mark label] := fun _ => Steady.regular (by simp)
    exact (((((hnote.append (hmark _)).before (htest.regular htags hn.1 htestl hstop)).append
      (hbody.regular htags hn.2 hbodyl hexit)).after
        (Steady.regular (by simpa using Item.steady_j htop)))).after (hmark _)
  | .write he _ hprint hend =>
    simp only [labelNames_append, List.append_subset] at hl
    refine (Regular.note ?_).before (((he.regular htags hn hl.2.1.1).after hprint.regular).after
      hend.straight.regular)
    simp only [oneLine_append]
    exact ⟨⟨by decide, he.oneLine_text hn⟩, by decide⟩
  | .read _ htarget _ _ hloc =>
    simp only [labelNames_append, List.append_subset] at hl
    refine (Regular.note ?_).before ((((htarget.regular htags hn hl.2.1.1.1).after
      (regular_readCode _ _)).after hloc.straight.regular).after (Straight.regular (by simp)))
    simp only [oneLine_append]
    exact ⟨⟨by decide, htarget.oneLine_text hn⟩, by decide⟩
  | .leave hmissing =>
    obtain rfl := Expr.eq_missing hmissing
    exact Steady.regular (by simpa using Item.steady_j hexit)
  | .ret _ _ hresult _ _ _ _ hmove =>
    simp only [labelNames_append, List.append_subset] at hl
    refine (((Regular.note ?_).before (hresult.regular htags hn hl.1.1.2)).after
      hmove.straight.regular).after (Steady.regular (by simpa using Item.steady_j hexit))
    rw [oneLine_append]
    exact ⟨by decide, hresult.oneLine_text hn⟩
  | .call he => 
    rw [Stmt.callees]
    exact he.regular htags hn hl

theorem RunsAll.regular {path : Path} {i : ℕ} {sts : List Stmt} {code : Code}
    (h : RunsAll c path i sts code) (htags : OwnTags c) (hn : OneLiners (Stmt.namesOf sts))
    (hl : labelNames code ⊆ labels) (hexit : c.exit ∈ labels) :
    Regular c labels (Stmt.calleesOf sts) code := by
  match h with
  | .nil => exact .nil
  | .cons hst hsts =>
    rw [Stmt.namesOf, oneLiners_append] at hn
    rw [labelNames_append, List.append_subset] at hl
    exact (hst.regular htags hn.1 hl.1 hexit).append (hsts.regular htags hn.2 hl.2 hexit)

end

theorem Function.exit_mem {tag : String} {f : MoonBackend.Function} (h : Function c tag f code) :
    c.exit ∈ labelNames code := by
  cases h <;> simp [Code.mark]

theorem Function.regular {tag : String} {f : MoonBackend.Function} (h : Function c tag f code)
    (htags : OwnTags c) (hn : OneLiners (f.toSignature.names ++ Stmt.namesOf f.body))
    (hl : labelNames code ⊆ labels) : Regular c labels (Stmt.calleesOf f.body) code := by
  have hexit := hl h.exit_mem
  rw [oneLiners_append] at hn
  have hmark : Regular c labels [] [mark c.exit] := Steady.regular (by simp)
  have hsig : Regular c labels [] (c.note f.toSignature.text) := .note (Signature.oneLine_text hn.1)
  cases h with
  | entry _ _ hbody =>
    simp only [labelNames_append, List.append_subset] at hl
    refine ((hsig.append (.start (by decide) (oneLine_decimal _))).before
      (hbody.regular htags hn.2 hl.1.2 hexit)).after hmark
  | routine _ _ hbody hresult =>
    simp only [labelNames_append, List.append_subset] at hl
    have hstart : Steady c labels [.labeled tag (.sw ‹Int64› c.sp c.link)] := by simp
    have hback : Straight c (plain [.lw c.link ‹Int64› c.sp, .reg1 .jr c.link]) := by simp +decide
    exact (((hsig.append hstart.regular).before (hbody.regular htags hn.2 hl.1.1.2 hexit)).after
      hmark).after (hresult.straight.regular.append hback.regular)

end Emit

end MoonBackend
