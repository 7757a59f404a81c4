import FiniteAutomata.Dot.Graph
import FiniteAutomata.Proofs.JoinedLines
import FiniteAutomata.Proofs.QuotedText

/-!
# A written graph can be taken apart

The written form of a graph says what its nodes, its initial node and its edges are, even if labels
hold quotes, line feeds or what looks like statements (`Graph.eq_of_render_eq`). Identifiers have to
be words, that is, without spaces and line feeds, and shapes and colours, which are not escaped,
without quotes (`Graph.WellFormed`).

The parts of the text are told apart from the front. `PrefixFree`: of two texts of a kind neither is
the beginning of the other, so that where one ends does not depend on what follows. Attributes,
lists of them in brackets and whole statements with the line feed behind them are so
(`prefixFree_render`, `prefixFree_attributeList`, `prefixFree_line`).
-/

namespace FiniteAutomata.Dot

/-! ## Texts that show where they end -/

/-- What is written for one of these is not the beginning of what is written for another. -/
def PrefixFree {α : Type} (Allowed : α → Prop) (write : α → List Char) : Prop :=
  ∀ a b x y, Allowed a → Allowed b → write a ++ x = write b ++ y → a = b ∧ x = y

section

variable {α : Type} {Allowed : α → Prop} {write : α → List Char}

/-- A sequence of such texts ends at a character that none of them begins with. -/
theorem PrefixFree.flatMap_append_inj (h : PrefixFree Allowed write) {stop : Char}
    (hstop : ∀ a x, Allowed a → (write a ++ x).head? ≠ some stop) {as bs : List α}
    {x y : List Char} (has : ∀ a ∈ as, Allowed a) (hbs : ∀ b ∈ bs, Allowed b)
    (heq : as.flatMap write ++ stop :: x = bs.flatMap write ++ stop :: y) : as = bs ∧ x = y := by
  induction as generalizing bs with
  | nil =>
    cases bs with
    | nil => simpa using heq
    | cons b bs =>
      rw [List.flatMap_cons, List.append_assoc] at heq
      exact absurd (congrArg List.head? heq.symm) (hstop b _ (hbs b List.mem_cons_self))
  | cons a as ih =>
    rw [List.forall_mem_cons] at has
    cases bs with
    | nil =>
      rw [List.flatMap_cons, List.append_assoc] at heq
      exact absurd (congrArg List.head? heq) (hstop a _ has.1)
    | cons b bs =>
      rw [List.forall_mem_cons] at hbs
      rw [List.flatMap_cons, List.flatMap_cons, List.append_assoc, List.append_assoc] at heq
      obtain ⟨rfl, hrest⟩ := h a b _ _ has.1 hbs.1 heq
      obtain ⟨rfl, hxy⟩ := ih has.2 hbs.2 hrest
      exact ⟨rfl, hxy⟩

end

/-! ## Attributes -/

/-- The value of the attribute, if it is not escaped, has no quotes. -/
def Attribute.Plain : Attribute → Prop
  | label _ => True
  | shape name => '"' ∉ name.toList
  | color name => '"' ∉ name.toList

theorem quoted_append_inj {s t : String} {x y : List Char} (hs : '"' ∉ s.toList)
    (ht : '"' ∉ t.toList) (h : (quoted s).toList ++ x = (quoted t).toList ++ y) :
    s = t ∧ x = y := by
  have heq : s.toList ++ '"' :: x = t.toList ++ '"' :: y := by simpa [quoted] using h
  obtain ⟨hst, -, hxy⟩ := Text.append_stop_inj (p := (· = '"')) (fun c hc h => hs (h ▸ hc))
    (fun c hc h => ht (h ▸ hc)) rfl rfl heq
  exact ⟨String.toList_inj.1 hst, hxy⟩

theorem quoted_escape_append_inj {s t : String} {x y : List Char}
    (h : (quoted (escape s)).toList ++ x = (quoted (escape t)).toList ++ y) : s = t ∧ x = y := by
  have heq : escapeChars s.toList ++ '"' :: x = escapeChars t.toList ++ '"' :: y := by
    simpa [quoted, escape] using h
  have hscan := congrArg scan heq
  rw [scan_escapeChars_append, scan_escapeChars_append, Option.some.injEq, Prod.mk.injEq] at hscan
  exact ⟨String.toList_inj.1 hscan.1, hscan.2⟩

theorem prefixFree_render : PrefixFree Attribute.Plain fun a => a.render.toList := by
  intro a b x y ha hb h
  -- different attributes differ in their first letters
  cases a with
  | label s =>
    cases b with
    | label t =>
      obtain ⟨rfl, hxy⟩ := quoted_escape_append_inj (by simpa [Attribute.render] using h)
      exact ⟨rfl, hxy⟩
    | shape t => simp [Attribute.render] at h
    | color t => simp [Attribute.render] at h
  | shape s =>
    cases b with
    | label t => simp [Attribute.render] at h
    | shape t =>
      obtain ⟨rfl, hxy⟩ := quoted_append_inj ha hb (by simpa [Attribute.render] using h)
      exact ⟨rfl, hxy⟩
    | color t => simp [Attribute.render] at h
  | color s =>
    cases b with
    | label t => simp [Attribute.render] at h
    | shape t => simp [Attribute.render] at h
    | color t =>
      obtain ⟨rfl, hxy⟩ := quoted_append_inj ha hb (by simpa [Attribute.render] using h)
      exact ⟨rfl, hxy⟩

theorem head?_render_ne (a : Attribute) (x : List Char) :
    (a.render.toList ++ x).head? ≠ some ']' := by
  cases a <;> simp [Attribute.render]

/-- The attributes in brackets. -/
def attributeList (as : List Attribute) : List Char :=
  (Text.bracketed (as.map Attribute.render)).toList

theorem attributeList_eq (as : List Attribute) : attributeList as =
    '[' :: ((Text.enumerate (as.map Attribute.render)).toList ++ [']']) := by
  simp [attributeList, Text.bracketed]

theorem attributeList_nil_append (x : List Char) : attributeList [] ++ x = '[' :: ']' :: x := rfl

theorem attributeList_cons_append (a : Attribute) (as : List Attribute) (x : List Char) :
    attributeList (a :: as) ++ x = '[' :: (a.render.toList
      ++ (as.flatMap (fun b => ',' :: ' ' :: b.render.toList) ++ ']' :: x)) := by
  have htext : (Text.enumerate ((a :: as).map Attribute.render)).toList =
      a.render.toList ++ as.flatMap fun b => ',' :: ' ' :: b.render.toList := by
    induction as generalizing a with
    | nil => simp [Text.enumerate]
    | cons b as ih =>
      have hb := ih b
      simp only [Text.enumerate, List.map_cons, String.intercalate_cons_cons,
        String.toList_append] at hb ⊢
      rw [hb]
      simp
  rw [attributeList_eq, htext]
  simp

theorem prefixFree_attributeList :
    PrefixFree (fun as => ∀ a ∈ as, Attribute.Plain a) attributeList := by
  intro as bs x y has hbs h
  have hitems : PrefixFree Attribute.Plain fun b => ',' :: ' ' :: b.render.toList := by
    intro a b x y ha hb h
    exact prefixFree_render a b x y ha hb (by simpa using h)
  cases as with
  | nil =>
    cases bs with
    | nil => exact ⟨rfl, by simpa [attributeList_nil_append] using h⟩
    | cons b bs =>
      rw [attributeList_nil_append, attributeList_cons_append, List.cons.injEq] at h
      exact absurd (congrArg List.head? h.2.symm) (head?_render_ne b _)
  | cons a as =>
    rw [List.forall_mem_cons] at has
    cases bs with
    | nil =>
      rw [attributeList_nil_append, attributeList_cons_append, List.cons.injEq] at h
      exact absurd (congrArg List.head? h.2) (head?_render_ne a _)
    | cons b bs =>
      rw [List.forall_mem_cons] at hbs
      rw [attributeList_cons_append, attributeList_cons_append, List.cons.injEq] at h
      obtain ⟨rfl, hrest⟩ := prefixFree_render a b _ _ has.1 hbs.1 h.2
      obtain ⟨rfl, hxy⟩ := hitems.flatMap_append_inj (by simp) has.2 hbs.2 hrest
      exact ⟨rfl, hxy⟩

/-! ## Statements -/

/-- A text of letters and digits, which any other character ends. -/
def Word (text : String) : Prop := ∀ c ∈ text.toList, c.isAlphanum = true

theorem Word.append_inj {s t : String} {c d : Char} {x y : List Char} (hs : Word s) (ht : Word t)
    (hc : c.isAlphanum = false) (hd : d.isAlphanum = false)
    (h : s.toList ++ c :: x = t.toList ++ d :: y) : s = t ∧ c = d ∧ x = y := by
  obtain ⟨hst, hcd, hxy⟩ := Text.append_stop_inj (p := fun c => c.isAlphanum = false)
    (fun c hc => by simp [hs c hc]) (fun c hc => by simp [ht c hc]) hc hd h
  exact ⟨String.toList_inj.1 hst, hcd, hxy⟩

/-- A line of a graph that is not the same in all graphs. -/
inductive Statement
  | node (node : Node)
  | initial (ident : String)
  | edge (edge : Edge)

namespace Statement

/-- The line of the statement. -/
def text : Statement → String
  | node n => n.statement
  | initial ident => arrow "init" ident
  | edge e => e.statement

/-- The line of the statement and the line feed after it. -/
def line (s : Statement) : List Char := s.text.toList ++ ['\n']

/-- The identifiers are words, and attributes show where they end. -/
def WellFormed : Statement → Prop
  | node n => Word n.ident ∧ ∀ a ∈ n.attributes, a.Plain
  | initial ident => Word ident
  | edge e => Word e.source ∧ Word e.target

/-- The word that the line begins with. -/
def subject : Statement → String
  | node n => n.ident
  | initial _ => "init"
  | edge e => e.source

/-- What the line says about its first word. -/
def predicate : Statement → List Char
  | node n => attributeList n.attributes ++ ['\n']
  | initial ident => '-' :: '>' :: ' ' :: (ident.toList ++ ['\n'])
  | edge e => '-' :: '>' :: ' ' ::
    (e.target.toList ++ ' ' :: (attributeList [.label e.label] ++ ['\n']))

theorem line_eq (s : Statement) : s.line = s.subject.toList ++ ' ' :: s.predicate := by
  cases s <;> simp [line, text, subject, predicate, Node.statement, Edge.statement, annotated,
    arrow, attributeList]

variable {s t : Statement} {x y : List Char}

theorem WellFormed.word_subject (h : s.WellFormed) : Word s.subject := by
  cases s with
  | node n => exact h.1
  | initial ident => simp [Word, subject]
  | edge e => exact h.1

theorem predicate_append_inj (hs : s.WellFormed) (ht : t.WellFormed) (hst : s.subject = t.subject)
    (h : s.predicate ++ x = t.predicate ++ y) : s = t ∧ x = y := by
  cases s with
  | node n =>
    cases t with
    | node m =>
      simp only [predicate, List.append_assoc] at h
      obtain ⟨has, hxy⟩ := prefixFree_attributeList _ _ _ _ hs.2 ht.2 h
      obtain ⟨ident, attributes⟩ := n
      obtain ⟨ident', attributes'⟩ := m
      obtain rfl : ident = ident' := hst
      obtain rfl : attributes = attributes' := has
      exact ⟨rfl, (List.cons.inj hxy).2⟩
    | initial ident => simp [predicate, attributeList_eq] at h
    | edge e => simp [predicate, attributeList_eq] at h
  | initial ident =>
    cases t with
    | node m => simp [predicate, attributeList_eq] at h
    | initial ident' =>
      obtain ⟨rfl, -, hxy⟩ := Word.append_inj hs ht rfl rfl
        (by simpa [predicate] using h)
      exact ⟨rfl, hxy⟩
    | edge e =>
      -- a line feed ends the one identifier, a space the other
      obtain ⟨-, hend, -⟩ := Word.append_inj hs ht.2 rfl rfl
        (by simpa [predicate] using h)
      exact absurd hend (by decide)
  | edge e =>
    cases t with
    | node m => simp [predicate, attributeList_eq] at h
    | initial ident =>
      obtain ⟨-, hend, -⟩ := Word.append_inj hs.2 ht rfl rfl
        (by simpa [predicate] using h)
      exact absurd hend (by decide)
    | edge f =>
      obtain ⟨source, label, target⟩ := e
      obtain ⟨source', label', target'⟩ := f
      obtain rfl : source = source' := hst
      obtain ⟨rfl, -, hlabel⟩ := Word.append_inj hs.2 ht.2 rfl rfl
        (by simpa [predicate] using h)
      obtain ⟨heq, hxy⟩ := prefixFree_attributeList [.label label] [.label label'] _ _
        (by simp [Attribute.Plain]) (by simp [Attribute.Plain]) hlabel
      obtain rfl : label = label' := by simpa using heq
      exact ⟨rfl, (List.cons.inj hxy).2⟩

theorem WellFormed.head?_line_append_ne (h : s.WellFormed) (x : List Char) :
    (s.line ++ x).head? ≠ some '\x7d' := by
  have hword := h.word_subject
  rw [line_eq]
  cases hsubject : s.subject.toList with
  | nil => simp
  | cons c cs =>
    intro hc
    obtain rfl : c = '\x7d' := by simpa using hc
    have hbrace := hword '\x7d' (by simp [hsubject])
    exact absurd hbrace (by decide)

theorem prefixFree_line : PrefixFree WellFormed line := by
  intro s t x y hs ht h
  simp only [line_eq, List.append_assoc, List.cons_append] at h
  obtain ⟨hst, -, hxy⟩ := hs.word_subject.append_inj ht.word_subject rfl rfl h
  exact predicate_append_inj hs ht hst hxy

end Statement

/-! ## Graphs -/

namespace Graph

variable {g g' : Graph}

/-- Identifiers are words, and the rest of the text shows where it ends. -/
structure WellFormed (g : Graph) : Prop where
  name : '\n' ∉ (g.name?.getD "A").toList
  nodes : ∀ n ∈ g.nodes, Word n.ident ∧ ∀ a ∈ n.attributes, a.Plain
  initial : Word g.initial
  edges : ∀ e ∈ g.edges, Word e.source ∧ Word e.target

/-- The statements of a graph in their order. -/
def statements (g : Graph) : List Statement :=
  g.nodes.map .node ++ .initial g.initial :: g.edges.map .edge

theorem wellFormed_of_mem_statements (h : g.WellFormed) : ∀ s ∈ g.statements, s.WellFormed := by
  intro s hs
  rcases List.mem_append.1 hs with hs | hs
  · obtain ⟨n, hn, rfl⟩ := List.mem_map.1 hs
    exact h.nodes n hn
  · rcases List.mem_cons.1 hs with rfl | hs
    · exact h.initial
    · obtain ⟨e, he, rfl⟩ := List.mem_map.1 hs
      exact h.edges e he

/-- The statements are nodes up to the initial node, so they tell the parts of the graph apart. -/
theorem eq_of_statements_eq (h : g.statements = g'.statements) :
    g.nodes = g'.nodes ∧ g.initial = g'.initial ∧ g.edges = g'.edges := by
  have hnodes : ∀ nodes : List Node, ∀ s ∈ nodes.map Statement.node, ¬ ∀ n, s ≠ .node n := by
    intro nodes s hs hne
    obtain ⟨n, -, rfl⟩ := List.mem_map.1 hs
    exact hne n rfl
  obtain ⟨hnodes, hinitial, hedges⟩ := Text.append_stop_inj (p := fun s => ∀ n, s ≠ .node n)
    (hnodes g.nodes) (hnodes g'.nodes) (fun _ => Statement.noConfusion)
    (fun _ => Statement.noConfusion) h
  exact ⟨List.map_injective_iff.2 (fun _ _ => Statement.node.inj) hnodes,
    Statement.initial.inj hinitial,
    List.map_injective_iff.2 (fun _ _ => Statement.edge.inj) hedges⟩

theorem lines_eq (g : Graph) :
    g.lines = g.opening :: (headerStatements ++ g.statements.map Statement.text ++ ["\x7d"]) := by
  simp [lines, statements, Statement.text, Function.comp_def]

theorem toList_intercalate_append_singleton (ls : List String) (last : String) :
    ("\n".intercalate (ls ++ [last])).toList =
      (ls.flatMap fun l => l.toList ++ ['\n']) ++ last.toList := by
  induction ls with
  | nil => simp
  | cons l ls ih =>
    rw [List.cons_append, String.intercalate_cons_of_ne_nil (by simp), String.toList_append, ih]
    simp

theorem toList_render (g : Graph) : g.render.toList = g.opening.toList ++ '\n' ::
    ((headerStatements.flatMap fun s => s.toList ++ ['\n'])
      ++ (g.statements.flatMap Statement.line ++ ['\x7d'])) := by
  have hline : Statement.line = fun s => s.text.toList ++ ['\n'] := rfl
  rw [render, lines_eq, ← List.cons_append, toList_intercalate_append_singleton, hline]
  simp [List.flatMap_map]

/-- **A graph is determined by its text**, up to whether the name `A` is given. -/
theorem eq_of_render_eq (hg : g.WellFormed) (hg' : g'.WellFormed) (h : g.render = g'.render) :
    g.name?.getD "A" = g'.name?.getD "A" ∧ g.nodes = g'.nodes ∧ g.initial = g'.initial ∧
      g.edges = g'.edges := by
  have hopening : ∀ g : Graph, g.WellFormed → ∀ c ∈ g.opening.toList, ¬ c = '\n' := by
    intro g hg c hc hfeed
    refine hg.name ?_
    simpa [opening, hfeed] using hc
  rw [← String.toList_inj, toList_render, toList_render] at h
  obtain ⟨hname, -, hrest⟩ :=
    Text.append_stop_inj (p := (· = '\n')) (hopening g hg) (hopening g' hg') rfl rfl h
  have hstatements := Statement.prefixFree_line.flatMap_append_inj
    (fun s x hs => hs.head?_line_append_ne x)
    (wellFormed_of_mem_statements hg) (wellFormed_of_mem_statements hg')
    (List.append_cancel_left hrest)
  refine ⟨String.toList_inj.1 ?_, eq_of_statements_eq hstatements.1⟩
  simpa [opening] using hname

end Graph

end FiniteAutomata.Dot
