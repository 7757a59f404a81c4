import FiniteAutomata.Proofs.WrittenGrammar

/-!
# How far a definition is read

Lines are read one after the other, and no further than up to the one that settles the result. The
bytes from there on do not matter (`Decided.ofBytes_append`), be they text or not. Where the
lines before the first one that is not text settle nothing, that line is reached and is the error
(`ofBytes_eq_unreadable`).

`Decided bytes` tells from the result alone whether the lines settle it, together with whether the
line of the accepting states is there (`decided_iff`).
-/

namespace FiniteAutomata

namespace Text

variable {bytes before line after : List UInt8} {pieces : List (List UInt8)}

/-! ## The first line that is not text -/

/-- The line after some whole lines is not text. -/
structure FaultAfter (bytes before : List UInt8) : Prop where
  whole : WholeLines before
  fault : ∃ line after, bytes = before ++ (line ++ after) ∧ 10 ∉ line ∧
    (∀ b ∈ after.head?, b = 10) ∧ ∀ text, line ≠ encode text

/-- The first line that is not text comes after these lines, which are. -/
structure FirstFault (bytes before : List UInt8) : Prop extends FaultAfter bytes before where
  isText : ∃ text, before = encode text

/-- The line that some bytes begin with, where a line feed or nothing comes next. -/
theorem linesOfBytes_line_append (hline : 10 ∉ line) (hne : line ≠ [])
    (hafter : ∀ b ∈ after.head?, b = 10) :
    ∃ more, linesOfBytes (line ++ after) = decode? line :: more := by
  cases after with
  | nil =>
    rw [List.append_nil, linesOfBytes, terminated_eq_singleton hline hne]
    exact ⟨[], rfl⟩
  | cons b after =>
    obtain rfl : b = 10 := hafter b rfl
    have hpieces : ∀ piece ∈ [line], 10 ∉ piece := by simpa using hline
    have hsplit : line ++ 10 :: after = [line].flatMap (· ++ [10]) ++ after := by simp
    rw [hsplit, linesOfBytes, terminated_append hpieces]
    exact ⟨_, rfl⟩

theorem FaultAfter.linesOfBytes_eq (h : FaultAfter bytes before) :
    ∃ more, linesOfBytes bytes = linesOfBytes before ++ none :: more := by
  obtain ⟨line, after, rfl, hline, hafter, hfault⟩ := h.fault
  have hne : line ≠ [] := hfault ""
  have hdecode : decode? line = none := decode?_eq_none_iff.2 hfault
  obtain ⟨more, hmore⟩ := linesOfBytes_line_append hline hne hafter
  exact ⟨more, by rw [linesOfBytes_append h.whole, hmore, hdecode]⟩

theorem FirstFault.none_not_mem (h : FirstFault bytes before) : none ∉ linesOfBytes before := by
  obtain ⟨text, rfl⟩ := h.isText
  rw [linesOfBytes_encode]
  simp

/-- Lines that are text are one text together. -/
theorem exists_eq_encode (h : none ∉ pieces.map decode?) :
    ∃ text, pieces.flatMap (· ++ [10]) = encode text := by
  induction pieces with
  | nil => exact ⟨"", rfl⟩
  | cons piece pieces ih =>
    rw [List.map_cons, List.mem_cons, not_or] at h
    obtain ⟨line, hline⟩ := Option.ne_none_iff_exists'.1 (Ne.symm h.1)
    obtain ⟨text, htext⟩ := ih h.2
    refine ⟨line ++ "\n" ++ text, ?_⟩
    rw [List.flatMap_cons, htext, decode?_eq_some_iff.1 hline, encode_append, encode_append]
    rfl

/-- Where there is a line that is not text, there is a first one. -/
theorem FaultAfter.exists_firstFault (h : FaultAfter bytes before) :
    ∃ first, FirstFault bytes first := by
  obtain ⟨more, hnone⟩ := h.linesOfBytes_eq
  have hmem : none ∈ linesOfBytes bytes := by simp [hnone]
  obtain ⟨hfeed, heq⟩ := terminated_eq_iff.1 (Eq.refl (terminated 10 bytes))
  obtain ⟨texts, rest, hlines, htexts⟩ := List.eq_append_cons_of_mem hmem
  obtain ⟨pieces, more, hpieces, rfl, hmore⟩ := List.map_eq_append_iff.1 hlines
  obtain ⟨line, more, rfl, hdecode, -⟩ := List.map_eq_cons_iff.1 hmore
  rw [hpieces] at hfeed heq
  rw [List.forall_mem_append, List.forall_mem_cons] at hfeed
  rw [List.flatMap_append, List.flatMap_cons, List.append_assoc line] at heq
  have hfault := decode?_eq_none_iff.1 hdecode
  refine ⟨_, ⟨wholeLines_flatMap pieces, line, ?_⟩, exists_eq_encode htexts⟩
  -- the line has its line feed, or is the last one and lacks it
  rcases heq with heq | ⟨heq, -⟩
  · exact ⟨_, heq, hfeed.2.1, by simp, hfault⟩
  · generalize more.flatMap (· ++ [10]) = rest at heq
    have hbytes := congrArg List.dropLast heq
    rw [List.dropLast_concat] at hbytes
    refine ⟨([10] ++ rest).dropLast, ?_, hfeed.2.1, ?_, hfault⟩
    · rw [hbytes]
      simp
    · cases rest <;> simp

end Text

/-- Lines at the front keep their numbers. -/
theorem Line.significant_append (raw more : List (Option String)) :
    ∃ rest, significant (raw ++ more) = significant raw ++ rest := by
  rw [significant, List.zipIdx_append, List.map_append, List.filter_append]
  exact ⟨_, rfl⟩

/-- A line that is not text is no comment. -/
theorem Line.significant_append_none (raw more : List (Option String)) :
    ∃ k rest, significant (raw ++ none :: more) = significant raw ++ ⟨k, none⟩ :: rest := by
  rw [significant, List.zipIdx_append, List.map_append, List.filter_append, List.zipIdx_cons,
    List.map_cons, List.filter_cons_of_pos rfl]
  exact ⟨_, _, rfl⟩

namespace Definition

variable {lines more : List Line} {bytes before : List UInt8} {d : Definition}
  {result : Except InputError Definition}

/-! ## Whether more lines matter -/

theorem Settles.append (h : Settles lines result) (more : List Line) :
    Settles (lines ++ more) result := by
  cases h with
  | misplaced hbody hmisplaced =>
    rw [List.cons_append, List.cons_append, List.append_assoc, List.cons_append]
    exact .misplaced hbody hmisplaced
  | full hhead hnames =>
    rw [List.append_assoc, List.cons_append]
    exact .full hhead hnames

theorem Awaits.truncated_or_ok (h : Awaits lines result) :
    (∃ part, result = .error (.truncated part)) ∨ ∃ d, result = .ok d := by
  cases h with
  | accepting => exact .inr ⟨_, rfl⟩
  | _ => exact .inl ⟨_, rfl⟩

theorem Awaits.ne_malformed {k : Nat} (h : Awaits lines result) :
    result ≠ .error (.malformed k) := by
  rcases h.truncated_or_ok with ⟨part, rfl⟩ | ⟨d, rfl⟩ <;> simp

/-- The line of the accepting states is there. -/
def AcceptingShown (bytes : List UInt8) : Prop :=
  ∃ head d k names rest, ShowHead head d ∧
    Line.significant (Text.linesOfBytes bytes) = head ++ ⟨k, some names⟩ :: rest

/-- The bytes are read to a result without reaching their end. -/
def Decided (bytes : List UInt8) : Prop :=
  (∃ k, ofBytes bytes = .error (.malformed k)) ∨
    ∃ d, ofBytes bytes = .ok d ∧ AcceptingShown bytes

theorem decided_iff :
    Decided bytes ↔ ∃ result, Settles (Line.significant (Text.linesOfBytes bytes)) result := by
  constructor
  · rintro (⟨k, hk⟩ | ⟨-, -, head, d, k, names, rest, hhead, hlines⟩)
    · rcases settles_or_awaits hk (by simp) with h | h
      · exact ⟨_, h⟩
      · exact absurd rfl h.ne_malformed
    · exact ⟨_, hlines.symm ▸ Settles.full hhead (nameList_eq_iff.1 rfl)⟩
  · rintro ⟨result, h⟩
    have hread : ofBytes bytes = result := h.readLines_eq
    generalize hlines : Line.significant (Text.linesOfBytes bytes) = lines at h
    cases h with
    | misplaced => exact .inl ⟨_, hread⟩
    | full hhead => exact .inr ⟨_, hread, _, _, _, _, _, hhead, hlines⟩

/-- What comes after the whole lines that settle the result does not matter. -/
theorem Decided.ofBytes_append (h : Decided before) (hwhole : Text.WholeLines before)
    (more : List UInt8) : ofBytes (before ++ more) = ofBytes before := by
  obtain ⟨result, hsettles⟩ := decided_iff.1 h
  obtain ⟨rest, hlines⟩ := Line.significant_append (Text.linesOfBytes before)
    (Text.linesOfBytes more)
  rw [← Text.linesOfBytes_append hwhole] at hlines
  rw [ofBytes, ofBytes, hsettles.readLines_eq]
  exact Settles.readLines_eq (hlines ▸ hsettles.append rest)

section

variable (h : Text.FirstFault bytes before)
include h

theorem Decided.ofBytes_eq (hdecided : Decided before) : ofBytes bytes = ofBytes before := by
  obtain ⟨line, after, rfl, -⟩ := h.fault
  exact hdecided.ofBytes_append h.whole (line ++ after)

theorem awaits_of_not_decided (hdecided : ¬ Decided before) :
    Awaits (Line.significant (Text.linesOfBytes before)) (ofBytes before) := by
  rcases readLines_cases (Text.linesOfBytes before) with (hsettles | hawaits) | ⟨-, hmem⟩
  · exact absurd (decided_iff.2 ⟨_, hsettles⟩) hdecided
  · exact hawaits
  · exact absurd hmem h.none_not_mem

theorem ofBytes_eq_unreadable (hdecided : ¬ Decided before) :
    ofBytes bytes = .error (.unreadable .notText) := by
  obtain ⟨more, hlines⟩ := h.linesOfBytes_eq
  obtain ⟨k, rest, hsignificant⟩ := Line.significant_append_none (Text.linesOfBytes before) more
  exact (awaits_of_not_decided h hdecided).readLines_eq_unreadable (hlines ▸ hsignificant)

end

/-- **Reading is decided by the lines up to the one that settles the result.** A line that is not
text is an error just if the lines before it settle nothing, since the input breaks off there or
the accepting states are missing. Nothing that comes after a line that settles the result changes
it. -/
theorem ofBytes_settled_early :
    (∀ bytes before, Text.FaultAfter bytes before → ∃ first, Text.FirstFault bytes first) ∧
    (∀ bytes before, Text.FirstFault bytes before →
      (Decided before → ofBytes bytes = ofBytes before) ∧
      (¬ Decided before → ofBytes bytes = .error (.unreadable .notText) ∧
        ((∃ part, ofBytes before = .error (.truncated part)) ∨
          ∃ d, ofBytes before = .ok d ∧ ¬ AcceptingShown before))) ∧
    ∀ bytes more, bytes.getLast? = some 10 → Decided bytes →
      ofBytes (bytes ++ more) = ofBytes bytes := by
  refine ⟨fun bytes before h => h.exists_firstFault, fun bytes before h => ⟨?_, ?_⟩, ?_⟩
  · exact fun hdecided => hdecided.ofBytes_eq h
  · intro hdecided
    refine ⟨ofBytes_eq_unreadable h hdecided, ?_⟩
    rcases (awaits_of_not_decided h hdecided).truncated_or_ok with htruncated | ⟨d, hd⟩
    · exact .inl htruncated
    · exact .inr ⟨d, hd, fun haccepting => hdecided (.inr ⟨d, hd, haccepting⟩)⟩
  · intro bytes more hlast hdecided
    exact hdecided.ofBytes_append (Text.wholeLines_of_getLast? hlast) more

/-- An automaton with one state, which loops. -/
def loop (accepting : List String) : Definition :=
  ⟨["A"], ["a"], [⟨"A", "a", "A"⟩], some "A", accepting⟩

/-- The automaton up to its start state. -/
def untilStart : List UInt8 := Text.encode "A\na\nA,a,A\ndone\nA\n"

/-- The automaton up to its accepting states. -/
def untilAccepting : List UInt8 := Text.encode "A\na\nA,a,A\ndone\nA\nA\n"

/-- A comment that is not text. -/
def badComment : List UInt8 := [35, 255]

theorem showHead_loop : ShowHead [⟨1, some "A"⟩, ⟨2, some "a"⟩, ⟨3, some "A,a,A"⟩,
    ⟨4, some "done"⟩, ⟨5, some "A"⟩] (loop []) := by
  have hstates : nameList "A" = ["A"] := by decide +kernel
  have hsymbols : nameList "a" = ["a"] := by decide +kernel
  have hrow : fields "A,a,A" = ["A", "a", "A"] := by decide +kernel
  have hdone : isDone "done" = true := by decide +kernel
  exact .intro (d := loop []) (nameList_eq_iff.1 hstates) (nameList_eq_iff.1 hsymbols)
    (.row (fields_eq_iff.1 hrow) .nil) (isDone_iff.1 hdone) (showsStart_iff.2 rfl) rfl

theorem faultAfter_badComment (hwhole : before.getLast? = some 10) :
    Text.FaultAfter (before ++ badComment) before := by
  have hfault : Text.decode? badComment = none := by decide +kernel
  exact ⟨Text.wholeLines_of_getLast? hwhole, badComment, [], by rw [List.append_nil], by decide,
    by simp, Text.decode?_eq_none_iff.1 hfault⟩

theorem decided_untilAccepting : Decided untilAccepting :=
  .inr ⟨loop ["A"], by decide +kernel, _, _, 6, "A", [], showHead_loop, by decide +kernel⟩

theorem not_decided_untilStart : ¬ Decided untilStart := by
  intro hdecided
  have hwhole : Text.WholeLines untilStart := Text.wholeLines_of_getLast? (by decide +kernel)
  have hread := hdecided.ofBytes_append hwhole (Text.encode "A\n")
  exact absurd hread (by decide +kernel)

/-- A comment that is not text is an error before the accepting states and ignored after them. -/
theorem ofBytes_settled_early_loop :
    (∃ first, Text.FirstFault (untilStart ++ badComment) first) ∧
    ofBytes untilStart = .ok (loop []) ∧
    ofBytes (untilStart ++ badComment) = .error (.unreadable .notText) ∧
    ofBytes (untilAccepting ++ badComment) = .ok (loop ["A"]) ∧
    ofBytes (untilAccepting ++ badComment ++ [10]) = .ok (loop ["A"]) := by
  obtain ⟨hexists, hfault, hmore⟩ := ofBytes_settled_early
  have hlast : untilAccepting.getLast? = some 10 := by decide +kernel
  have hstart := faultAfter_badComment (by decide +kernel : untilStart.getLast? = some 10)
  have haccepting := faultAfter_badComment hlast
  have hread : ofBytes untilAccepting = .ok (loop ["A"]) := by decide +kernel
  refine ⟨hexists _ _ hstart, by decide +kernel, ?_, ?_, ?_⟩
  · exact ((hfault _ _ ⟨hstart, _, rfl⟩).2 not_decided_untilStart).1
  · exact ((hfault _ _ ⟨haccepting, _, rfl⟩).1 decided_untilAccepting).trans hread
  · rw [List.append_assoc, hmore _ _ hlast decided_untilAccepting, hread]

end Definition

end FiniteAutomata
