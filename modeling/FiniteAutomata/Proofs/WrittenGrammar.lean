import Mathlib.Data.List.Forall2
import FiniteAutomata.Definition.Read
import FiniteAutomata.Proofs.JoinedLines
import FiniteAutomata.Proofs.TrimmedText

/-!
# The grammar of written definitions

What the lines of a written definition have to look like and what they say, without a reader. Only
lines that are no comments count, which are trimmed and have the numbers they have among all lines
(`Keep`). Some lines settle the result whatever comes after them (`Settles`): those of a definition
with its accepting states, and those up to the first that is neither a transition nor `done`. Others
only have a result if they are the last (`Awaits`).

The reader gives this result (`Settles.readLines_eq`, `Awaits.readLines_eq`), and all lines have one
up to the first that is no text at least (`hasResult`), so a text is read as the grammar says
(`ofText_eq_iff`).
-/

namespace FiniteAutomata

theorem toLower_eq_iff {c d : Char} (hd : 'a'.val ≤ d.val ∧ d.val ≤ 'z'.val) :
    c.toLower = d ↔ c = d ∨ c = d.toUpper := by
  have hlower : 'a'.val.toNat ≤ d.val.toNat ∧ d.val.toNat ≤ 'z'.val.toNat := hd
  have hupper : d.toUpper.val.toNat = d.val.toNat - 32 := by
    have hchar : d.toUpper = ⟨d.val + ('A'.val - 'a'.val), _⟩ := dif_pos hd
    rw [hchar, UInt32.toNat_add]
    simp at *
    omega
  rw [Char.ext_iff, Char.ext_iff, Char.ext_iff, ← UInt32.toNat_inj, ← UInt32.toNat_inj,
    ← UInt32.toNat_inj, hupper]
  by_cases h : 'A'.val ≤ c.val ∧ c.val ≤ 'Z'.val
  · have hc : 'A'.val.toNat ≤ c.val.toNat ∧ c.val.toNat ≤ 'Z'.val.toNat := h
    have hchar : c.toLower = ⟨c.val + ('a'.val - 'A'.val), _⟩ := dif_pos h
    rw [hchar, UInt32.toNat_add]
    simp at *
    omega
  · have hc : ¬ ('A'.val.toNat ≤ c.val.toNat ∧ c.val.toNat ≤ 'Z'.val.toNat) := h
    have hchar : c.toLower = c := dif_neg h
    rw [hchar]
    simp at *
    omega

theorem map_toLower_eq_iff {cs ds : List Char}
    (hds : ∀ d ∈ ds, 'a'.val ≤ d.val ∧ d.val ≤ 'z'.val) :
    cs.map Char.toLower = ds ↔ List.Forall₂ (fun c d => c = d ∨ c = d.toUpper) cs ds := by
  induction ds generalizing cs with
  | nil => simp
  | cons d ds ih =>
    rw [List.forall_mem_cons] at hds
    cases cs with
    | nil => simp
    | cons c cs =>
      rw [List.map_cons, List.cons.injEq, List.forall₂_cons, toLower_eq_iff hds.1, ih hds.2]

namespace Definition

/-! ## What a line shows -/

/-- The lines, trimmed and without the comments, with their numbers counted on from `n`. -/
inductive Keep : Nat → List String → List Line → Prop
  | nil {n : Nat} : Keep n [] []
  | comment {n : Nat} {text trimmed : String} {lines : List String} {kept : List Line} :
    Text.TrimsTo text trimmed → trimmed.toList.head? = some '#' → Keep (n + 1) lines kept →
      Keep n (text :: lines) kept
  | line {n : Nat} {text trimmed : String} {lines : List String} {kept : List Line} :
    Text.TrimsTo text trimmed → trimmed.toList.head? ≠ some '#' → Keep (n + 1) lines kept →
      Keep n (text :: lines) (⟨n, some trimmed⟩ :: kept)

/-- The text is `done` in letters of either case. -/
def SpellsDone (text : String) : Prop :=
  List.Forall₂ (fun c d => c = d ∨ c = d.toUpper) text.toList "done".toList

/-- The text is the fields with commas between them, each in some white space. -/
def ShowsFields (text : String) (fields : List String) : Prop :=
  ∃ pieces : List String, pieces ≠ [] ∧ (∀ piece ∈ pieces, ',' ∉ piece.toList) ∧
    text = ",".intercalate pieces ∧ List.Forall₂ Text.TrimsTo pieces fields

/-- The text lists the names, of which a blank one has none. -/
def ShowsNames (text : String) (names : List String) : Prop :=
  if text = "" then names = [] else ShowsFields text names

/-- The text gives the start state, and a blank one says that there is none. -/
def ShowsStart (text : String) (start? : Option String) : Prop :=
  start? = if text = "" then none else some text

/-- The text has no place among the transitions and does not end them either. -/
structure Misplaced (text : String) : Prop where
  not_done : ¬ SpellsDone text
  ne_empty : text ≠ ""
  not_fields : ∀ source label target, ¬ ShowsFields text [source, label, target]

/-- The lines are transitions, which are these, and blank ones. -/
inductive ShowTransitions : List Line → List NamedTransition → Prop
  | nil : ShowTransitions [] []
  | blank {k : Nat} {lines : List Line} {ts : List NamedTransition} :
    ShowTransitions lines ts → ShowTransitions (⟨k, some ""⟩ :: lines) ts
  | row {k : Nat} {text source label target : String} {lines : List Line}
    {ts : List NamedTransition} :
    ShowsFields text [source, label, target] → ShowTransitions lines ts →
      ShowTransitions (⟨k, some text⟩ :: lines) (⟨source, label, target⟩ :: ts)

/-- The lines are all that come before the accepting states, and say this. -/
inductive ShowHead : List Line → Definition → Prop
  | intro {i j k l : Nat} {states symbols stop start : String} {body : List Line}
    {d : Definition} :
    ShowsNames states d.states → ShowsNames symbols d.symbols →
    ShowTransitions body d.transitions → SpellsDone stop → ShowsStart start d.start? →
    d.accepting = [] →
      ShowHead (⟨i, some states⟩ :: ⟨j, some symbols⟩ ::
        (body ++ [⟨k, some stop⟩, ⟨l, some start⟩])) d

/-! ## What the lines say -/

/-- The lines have this result, whatever comes after them. -/
inductive Settles : List Line → Except InputError Definition → Prop
  | misplaced {i j k : Nat} {states symbols text : String} {body rest : List Line}
    {ts : List NamedTransition} :
    ShowTransitions body ts → Misplaced text →
      Settles (⟨i, some states⟩ :: ⟨j, some symbols⟩ :: (body ++ ⟨k, some text⟩ :: rest))
        (.error (.malformed k))
  | full {k : Nat} {text : String} {head rest : List Line} {d : Definition}
    {names : List String} :
    ShowHead head d → ShowsNames text names →
      Settles (head ++ ⟨k, some text⟩ :: rest) (.ok { d with accepting := names })

/-- The lines have this result if no more come after them. -/
inductive Awaits : List Line → Except InputError Definition → Prop
  | states : Awaits [] (.error (.truncated .states))
  | alphabet {i : Nat} {states : String} :
    Awaits [⟨i, some states⟩] (.error (.truncated .alphabet))
  | transitions {i j : Nat} {states symbols : String} {body : List Line}
    {ts : List NamedTransition} :
    ShowTransitions body ts →
      Awaits (⟨i, some states⟩ :: ⟨j, some symbols⟩ :: body) (.error (.truncated .transitions))
  | startState {i j k : Nat} {states symbols stop : String} {body : List Line}
    {ts : List NamedTransition} :
    ShowTransitions body ts → SpellsDone stop →
      Awaits (⟨i, some states⟩ :: ⟨j, some symbols⟩ :: (body ++ [⟨k, some stop⟩]))
        (.error (.truncated .startState))
  | accepting {head : List Line} {d : Definition} : ShowHead head d → Awaits head (.ok d)

/-! ## What the reader finds on a line -/

variable {text source label target : String} {names : List String} {start? : Option String}

theorem forall₂_trimsTo_iff {pieces : List String} :
    List.Forall₂ Text.TrimsTo pieces names ↔ pieces.map Text.trim = names := by
  rw [← List.forall₂_eq_eq_eq, List.forall₂_map_left_iff]
  simp only [Text.trim_eq_iff]

theorem fields_eq_iff : fields text = names ↔ ShowsFields text names := by
  constructor
  · intro h
    obtain ⟨hne, hcomma, heq⟩ := Text.splitAt_eq_iff.1 (Eq.refl (Text.splitAt ',' text))
    exact ⟨_, hne, hcomma, heq, forall₂_trimsTo_iff.2 h⟩
  · rintro ⟨pieces, hne, hcomma, heq, hnames⟩
    rw [fields, Text.splitAt_eq_iff.2 ⟨hne, hcomma, heq⟩, forall₂_trimsTo_iff.1 hnames]

theorem nameList_eq_iff : nameList text = names ↔ ShowsNames text names := by
  unfold nameList ShowsNames
  by_cases h : text = ""
  · rw [if_pos (String.isEmpty_iff.2 h), if_pos h, eq_comm]
  · rw [if_neg (mt String.isEmpty_iff.1 h), if_neg h, fields_eq_iff]

theorem showsStart_iff :
    ShowsStart text start? ↔ (if text.isEmpty then none else some text) = start? := by
  simp only [ShowsStart, String.isEmpty_iff]
  exact eq_comm

theorem isDone_eq_true_iff : isDone text = true ↔ text.toList.map Char.toLower = "done".toList := by
  have hlower : text.toLower.toList = text.toList.map Char.toLower := String.toList_map
  rw [isDone, beq_iff_eq, ← String.toList_inj, hlower]

theorem isDone_iff : isDone text = true ↔ SpellsDone text :=
  isDone_eq_true_iff.trans (map_toLower_eq_iff (by simp))

theorem comma_not_mem_of_isDone (h : isDone text = true) : ',' ∉ text.toList := by
  rw [isDone_eq_true_iff] at h
  intro hcomma
  have hmem := List.mem_map_of_mem (f := Char.toLower) hcomma
  rw [h] at hmem
  exact absurd hmem (by decide)

theorem ShowsFields.isDone_eq_false (h : ShowsFields text [source, label, target]) :
    isDone text = false := by
  rw [Bool.eq_false_iff]
  intro hdone
  have hsplit : Text.splitAt ',' text = [text] := Text.splitAt_eq_iff.2
    ⟨List.cons_ne_nil _ _, by simpa using comma_not_mem_of_isDone hdone, by simp⟩
  have hfields := fields_eq_iff.2 h
  rw [fields, hsplit] at hfields
  simp at hfields

theorem ShowsFields.isEmpty_eq_false (h : ShowsFields text [source, label, target]) :
    text.isEmpty = false := by
  rw [Bool.eq_false_iff]
  intro hempty
  have hfields := fields_eq_iff.2 h
  rw [String.isEmpty_iff.1 hempty] at hfields
  exact absurd (congrArg List.length hfields) (by simp [fields, Text.splitAt])

/-! ## The lines that are no comments -/

theorem keep_cons_iff {n : Nat} {lines : List String} {kept : List Line} :
    Keep n (text :: lines) kept ↔ if (Text.trim text).toList.head? = some '#'
      then Keep (n + 1) lines kept
      else ∃ more, ⟨n, some (Text.trim text)⟩ :: more = kept ∧ Keep (n + 1) lines more := by
  constructor
  · intro h
    cases h with
    | comment htrim hcomment hkeep =>
      rwa [Text.trim_eq_iff.2 htrim, if_pos hcomment]
    | line htrim hcomment hkeep =>
      rw [Text.trim_eq_iff.2 htrim, if_neg hcomment]
      exact ⟨_, rfl, hkeep⟩
  · intro h
    split at h
    · rename_i hcomment
      exact .comment (Text.trim_eq_iff.1 rfl) hcomment h
    · rename_i hcomment
      obtain ⟨more, rfl, hkeep⟩ := h
      exact .line (Text.trim_eq_iff.1 rfl) hcomment hkeep

theorem keep_iff {n : Nat} {lines : List String} {kept : List Line} : Keep (n + 1) lines kept ↔
    (((lines.map some).zipIdx n).map fun place =>
      (⟨place.2 + 1, place.1.map Text.trim⟩ : Line)).filter (!·.isComment) = kept := by
  induction lines generalizing n kept with
  | nil =>
    constructor
    · intro h
      cases h
      rfl
    · rintro rfl
      exact .nil
  | cons text lines ih =>
    simp only [keep_cons_iff, ih, List.map_cons, List.zipIdx_cons, List.filter_cons,
      Line.isComment, Option.map_some]
    split
    · rename_i hcomment
      simp [hcomment]
    · rename_i hcomment
      simp [hcomment]

theorem keep_significant_iff {lines : List String} {kept : List Line} :
    Keep 1 lines kept ↔ Line.significant (lines.map some) = kept :=
  keep_iff

/-! ## What the reader makes of the lines -/

section

variable {lines body head rest : List Line} {ts : List NamedTransition} {d : Definition} {k : Nat}

theorem readTransitions_blank :
    readTransitions (⟨k, some ""⟩ :: lines) = readTransitions lines := by
  rw [readTransitions, if_neg (by decide +kernel), if_pos (String.isEmpty_iff.2 rfl)]

theorem readTransitions_row (h : ShowsFields text [source, label, target]) :
    readTransitions (⟨k, some text⟩ :: lines) =
      (readTransitions lines).map fun r => (⟨source, label, target⟩ :: r.1, r.2) := by
  rw [readTransitions, if_neg (by simp [h.isDone_eq_false]), if_neg (by simp [h.isEmpty_eq_false]),
    fields_eq_iff.2 h]
  cases readTransitions lines <;> rfl

theorem readTransitions_done (h : SpellsDone text) :
    readTransitions (⟨k, some text⟩ :: lines) = .ok ([], lines) := by
  rw [readTransitions, if_pos (isDone_iff.2 h)]

theorem readTransitions_misplaced (h : Misplaced text) :
    readTransitions (⟨k, some text⟩ :: lines) = .error (.malformed k) := by
  rw [readTransitions, if_neg (mt isDone_iff.1 h.not_done),
    if_neg (mt String.isEmpty_iff.1 h.ne_empty)]
  split
  · rename_i source label target hfields
    exact absurd (fields_eq_iff.1 hfields) (h.not_fields source label target)
  · rfl

/-- Transitions are read before whatever comes after them. -/
theorem ShowTransitions.readTransitions_append (h : ShowTransitions body ts) (rest : List Line) :
    readTransitions (body ++ rest) = (readTransitions rest).map fun r => (ts ++ r.1, r.2) := by
  induction h with
  | nil =>
    rw [List.nil_append]
    cases readTransitions rest <;> rfl
  | blank _ ih => rw [List.cons_append, readTransitions_blank, ih]
  | row hfields _ ih =>
    rw [List.cons_append, readTransitions_row hfields, ih]
    cases readTransitions rest <;> rfl

theorem readHead_cons_cons {i j : Nat} {states symbols : String} :
    readHead (⟨i, some states⟩ :: ⟨j, some symbols⟩ :: lines) =
      (readTransitions lines).bind fun r => (readLine .startState r.2).map fun s =>
        (⟨nameList states, nameList symbols, r.1, if s.1.isEmpty then none else some s.1, []⟩,
          s.2) := by
  simp only [readHead, readLine, bind, Except.bind, pure, Except.pure]
  cases readTransitions lines with
  | error e => rfl
  | ok r => simp only [Except.map]

theorem ShowHead.readHead_append (h : ShowHead head d) (rest : List Line) :
    readHead (head ++ rest) = .ok (d, rest) := by
  obtain ⟨hstates, hsymbols, hbody, hstop, hstart, haccepting⟩ := h
  rw [List.cons_append, List.cons_append, List.append_assoc, readHead_cons_cons,
    hbody.readTransitions_append, List.cons_append, readTransitions_done hstop,
    nameList_eq_iff.2 hstates, nameList_eq_iff.2 hsymbols]
  simp only [Except.map, Except.bind, readLine, List.cons_append, List.nil_append, List.append_nil,
    showsStart_iff.1 hstart]
  rw [← haccepting]

end

/-! ## The result of a reading -/

section

variable {lines body rest : List Line} {ts : List NamedTransition} {d : Definition} {k : Nat}
  {raw : List (Option String)} {result : Except InputError Definition}

theorem Settles.readLines_eq (h : Settles (Line.significant raw) result) :
    readLines raw = result := by
  unfold readLines
  generalize Line.significant raw = lines at h
  cases h with
  | misplaced hbody hmisplaced =>
    rw [readHead_cons_cons, hbody.readTransitions_append, readTransitions_misplaced hmisplaced]
    rfl
  | full hhead hnames =>
    rw [hhead.readHead_append]
    simp only [bind, Except.bind, readAccepting, pure, Except.pure, nameList_eq_iff.2 hnames]

theorem Awaits.readLines_eq (h : Awaits (Line.significant raw) result) :
    readLines raw = result := by
  unfold readLines
  generalize Line.significant raw = lines at h
  cases h with
  | states => rfl
  | alphabet => rfl
  | transitions hbody =>
    have hread := hbody.readTransitions_append []
    rw [List.append_nil] at hread
    rw [readHead_cons_cons, hread]
    rfl
  | startState hbody hstop =>
    rw [readHead_cons_cons, hbody.readTransitions_append, readTransitions_done hstop]
    rfl
  | accepting hhead =>
    have hread := hhead.readHead_append []
    rw [List.append_nil] at hread
    rw [hread]
    obtain ⟨-, -, -, -, -, haccepting⟩ := hhead
    simp only [bind, Except.bind, readAccepting, pure, Except.pure]
    rw [← haccepting]

/-- Where lines are missing, one that is no text is read. -/
theorem Awaits.readLines_eq_unreadable (h : Awaits lines result)
    (hraw : Line.significant raw = lines ++ ⟨k, none⟩ :: rest) :
    readLines raw = .error (.unreadable .notText) := by
  unfold readLines
  rw [hraw]
  cases h with
  | states => rfl
  | alphabet => rfl
  | transitions hbody =>
    rw [List.cons_append, List.cons_append, readHead_cons_cons, hbody.readTransitions_append]
    rfl
  | startState hbody hstop =>
    rw [List.cons_append, List.cons_append, List.append_assoc, readHead_cons_cons,
      hbody.readTransitions_append, List.cons_append, readTransitions_done hstop]
    rfl
  | accepting hhead =>
    rw [hhead.readHead_append]
    rfl

/-- Among transitions and blank lines, the first other line is no text, `done` or misplaced. -/
theorem exists_showTransitions (lines : List Line) : ∃ body ts rest, lines = body ++ rest ∧
    ShowTransitions body ts ∧ ∀ line ∈ rest.head?, ∀ text, line.text? = some text →
      SpellsDone text ∨ Misplaced text := by
  induction lines with
  | nil => exact ⟨[], [], [], rfl, .nil, by simp⟩
  | cons line lines ih =>
    obtain ⟨body, ts, rest, rfl, hbody, hrest⟩ := ih
    obtain ⟨k, _ | text⟩ := line
    · exact ⟨[], [], _, rfl, .nil, by simp⟩
    · by_cases hdone : SpellsDone text
      · exact ⟨[], [], _, rfl, .nil, by simp [hdone]⟩
      · by_cases hblank : text = ""
        · exact ⟨_ :: body, ts, rest, rfl, hblank ▸ hbody.blank, hrest⟩
        · by_cases hfields : ∃ source label target, ShowsFields text [source, label, target]
          · obtain ⟨source, label, target, hfields⟩ := hfields
            exact ⟨_ :: body, _, rest, rfl, hbody.row hfields, hrest⟩
          · simp only [not_exists] at hfields
            exact ⟨[], [], _, rfl, .nil, by simp [Misplaced.mk hdone hblank hfields]⟩

/-- The lines have a result, or would have one if they ended before a line that is no text. -/
def HasResult (lines : List Line) : Prop :=
  (∃ result, Settles lines result ∨ Awaits lines result) ∨
    ∃ before k after result, lines = before ++ ⟨k, none⟩ :: after ∧ Awaits before result

theorem ShowHead.hasResult (h : ShowHead lines d) (rest : List Line) :
    HasResult (lines ++ rest) := by
  match rest with
  | [] => exact .inl ⟨_, .inr (by rw [List.append_nil]; exact .accepting h)⟩
  | ⟨k, none⟩ :: after => exact .inr ⟨lines, k, after, _, rfl, .accepting h⟩
  | ⟨k, some names⟩ :: rest => exact .inl ⟨_, .inl (.full h (nameList_eq_iff.1 rfl))⟩

theorem ShowTransitions.hasResult_done (h : ShowTransitions body ts) {i j : Nat}
    {states symbols stop : String} (hstop : SpellsDone stop) (rest : List Line) :
    HasResult (⟨i, some states⟩ :: ⟨j, some symbols⟩ :: (body ++ ⟨k, some stop⟩ :: rest)) := by
  match rest with
  | [] => exact .inl ⟨_, .inr (.startState h hstop)⟩
  | ⟨l, none⟩ :: after =>
    exact .inr ⟨⟨i, some states⟩ :: ⟨j, some symbols⟩ :: (body ++ [⟨k, some stop⟩]), l, after, _,
      by simp, .startState h hstop⟩
  | ⟨l, some start⟩ :: rest =>
    have hhead : ShowHead (⟨i, some states⟩ :: ⟨j, some symbols⟩ ::
        (body ++ [⟨k, some stop⟩, ⟨l, some start⟩])) ⟨nameList states, nameList symbols, ts,
          if start.isEmpty then none else some start, []⟩ :=
      .intro (nameList_eq_iff.1 rfl) (nameList_eq_iff.1 rfl) h hstop (showsStart_iff.2 rfl) rfl
    simpa using hhead.hasResult rest

theorem hasResult (lines : List Line) : HasResult lines := by
  -- part by part, the lines end, the next one is no text, or it is taken
  match lines with
  | [] => exact .inl ⟨_, .inr .states⟩
  | ⟨k, none⟩ :: after => exact .inr ⟨[], k, after, _, rfl, .states⟩
  | [⟨i, some states⟩] => exact .inl ⟨_, .inr .alphabet⟩
  | ⟨i, some states⟩ :: ⟨k, none⟩ :: after =>
    exact .inr ⟨[⟨i, some states⟩], k, after, _, rfl, .alphabet⟩
  | ⟨i, some states⟩ :: ⟨j, some symbols⟩ :: lines =>
    obtain ⟨body, ts, rest, rfl, hbody, hrest⟩ := exists_showTransitions lines
    match rest with
    | [] => exact .inl ⟨_, .inr (by rw [List.append_nil]; exact .transitions hbody)⟩
    | ⟨k, none⟩ :: after =>
      exact .inr ⟨⟨i, some states⟩ :: ⟨j, some symbols⟩ :: body, k, after, _, rfl,
        .transitions hbody⟩
    | ⟨k, some text⟩ :: rest =>
      rcases hrest ⟨k, some text⟩ rfl text rfl with hdone | hmisplaced
      · exact hbody.hasResult_done hdone rest
      · exact .inl ⟨_, .inl (.misplaced hbody hmisplaced)⟩

theorem mem_of_mem_significant {line : Line} (h : line ∈ Line.significant raw) :
    ∃ text? ∈ raw, line.text? = text?.map Text.trim := by
  obtain ⟨⟨text?, n⟩, hmem, rfl⟩ := List.mem_map.1 (List.mem_filter.1 h).1
  exact ⟨text?, List.fst_mem_of_mem_zipIdx hmem, rfl⟩

theorem readLines_cases (raw : List (Option String)) :
    (Settles (Line.significant raw) (readLines raw) ∨
      Awaits (Line.significant raw) (readLines raw)) ∨
    readLines raw = .error (.unreadable .notText) ∧ none ∈ raw := by
  rcases hasResult (Line.significant raw) with ⟨r, hr | hr⟩ | ⟨before, k, after, r, hlines, hr⟩
  · exact .inl (.inl (hr.readLines_eq.symm ▸ hr))
  · exact .inl (.inr (hr.readLines_eq.symm ▸ hr))
  · refine .inr ⟨hr.readLines_eq_unreadable hlines, ?_⟩
    have hmem : (⟨k, none⟩ : Line) ∈ Line.significant raw := by simp [hlines]
    obtain ⟨text?, htext, heq⟩ := mem_of_mem_significant hmem
    exact Option.map_eq_none_iff.1 heq.symm ▸ htext

/-- A definition that is read is what the lines say, even if some lines are no text. -/
theorem settles_or_awaits (h : readLines raw = result)
    (hne : result ≠ .error (.unreadable .notText)) :
    Settles (Line.significant raw) result ∨ Awaits (Line.significant raw) result := by
  rcases readLines_cases raw with hr | ⟨hr, -⟩
  · exact h ▸ hr
  · exact absurd (h.symm.trans hr) hne

/-- The reader gives just what the lines of a text say. -/
theorem readLines_eq_iff (hraw : none ∉ raw) : readLines raw = result ↔
    Settles (Line.significant raw) result ∨ Awaits (Line.significant raw) result := by
  constructor
  · rintro rfl
    exact (readLines_cases raw).resolve_right fun h => hraw h.2
  · rintro (h | h)
    · exact h.readLines_eq
    · exact h.readLines_eq

theorem ofBytes_encode (text : String) : ofBytes (Text.encode text) = ofText text := by
  rw [ofBytes, Text.linesOfBytes_encode, ofText]

/-- **What is read off a text is what its lines say** by the grammar of written definitions: a
definition, or the first fault in its structure. -/
theorem ofText_eq_iff (text : String) (result : Except InputError Definition) :
    ofBytes (Text.encode text) = ofText text ∧
    (ofText text = result ↔ ∃ lines kept, Text.IsLines text lines ∧ Keep 1 lines kept ∧
      (Settles kept result ∨ Awaits kept result)) := by
  refine ⟨ofBytes_encode text, ?_⟩
  rw [ofText, readLines_eq_iff (by simp)]
  constructor
  · exact fun h => ⟨_, _, Text.lines_eq_iff.1 rfl, keep_significant_iff.2 rfl, h⟩
  · rintro ⟨lines, kept, hlines, hkeep, h⟩
    rwa [Text.lines_eq_iff.2 hlines, keep_significant_iff.1 hkeep]

end

end Definition

end FiniteAutomata
