import FiniteAutomata.Definition.Write
import FiniteAutomata.Proofs.TrimmedText
import FiniteAutomata.Proofs.WrittenGrammar

/-!
# Definitions and their written form

The lines of a writable definition show its parts by the grammar (`settles_writeLines`), so reading
gives it back. Whatever is read is writable (`writable_of_readLines`), since the lines it is read
from are trimmed and no comments. So writing loses nothing of a definition that has been read
(`ofText_write`).
-/

namespace FiniteAutomata.Definition

variable {name : String} {names : List String} {text : String} {d : Definition}

/-- A text that can stand on a line of its own, as it is. -/
structure ProperLine (text : String) : Prop where
  lineName : LineName text
  uncommented : Uncommented text

/-! ## Names on a line -/

theorem lineName_iff : LineName text ↔ '\n' ∉ text.toList ∧ Text.Tidy text.toList := by
  rw [LineName, Text.trim_eq_self_iff]

theorem writeNames_cons_cons {a b : String} {l : List String} :
    writeNames (a :: b :: l) = a ++ "," ++ writeNames (b :: l) :=
  String.intercalate_cons_cons

theorem lineName_append_comma {a b : String} (ha : LineName a) (hb : LineName b) :
    LineName (a ++ "," ++ b) := by
  rw [lineName_iff] at *
  have heq : (a ++ "," ++ b).toList = a.toList ++ ',' :: b.toList := by simp
  rw [heq]
  refine ⟨?_, ha.2.append_cons (by decide) hb.2⟩
  simp [ha.1, hb.1]

theorem lineName_writeNames (h : ∀ name ∈ names, LineName name) : LineName (writeNames names) := by
  induction names with
  | nil => exact lineName_iff.2 ⟨by simp [writeNames], by simpa [writeNames] using Text.tidy_nil⟩
  | cons a names ih =>
    rw [List.forall_mem_cons] at h
    cases names with
    | nil => simpa [writeNames] using h.1
    | cons b names =>
      rw [writeNames_cons_cons]
      exact lineName_append_comma h.1 (ih h.2)

theorem uncommented_writeNames (h : ∀ name ∈ names.head?, Uncommented name) :
    Uncommented (writeNames names) := by
  match names with
  | [] => simp [Uncommented, writeNames]
  | [name] => simpa [writeNames] using h
  | a :: b :: names =>
    have ha : Uncommented a := h a rfl
    rw [Uncommented, writeNames_cons_cons, String.toList_append, String.toList_append]
    cases hlist : a.toList with
    | nil => simp
    | cons c cs => simpa [Uncommented, hlist] using ha

theorem showsFields_writeNames (hne : names ≠ []) (h : ∀ name ∈ names, FieldName name) :
    ShowsFields (writeNames names) names := by
  refine ⟨names, hne, fun name hname => (h name hname).2, rfl, forall₂_trimsTo_iff.2 ?_⟩
  rw [List.map_congr_left fun name hname => (h name hname).1.2, List.map_id']

theorem writeNames_eq_empty_iff : writeNames names = "" ↔ names = [] ∨ names = [""] := by
  match names with
  | [] => simp [writeNames]
  | [name] => simp [writeNames]
  | a :: b :: names => simp [writeNames_cons_cons]

theorem showsNames_writeNames (h : WritableNames names) :
    ShowsNames (writeNames names) names := by
  unfold ShowsNames
  split
  · rename_i hempty
    exact (writeNames_eq_empty_iff.1 hempty).resolve_right h.ne_singleton_empty
  · rename_i hne
    exact showsFields_writeNames (fun hnil => hne (writeNames_eq_empty_iff.2 (.inl hnil))) h.fields

theorem properLine_writeNames (h : WritableNames names) : ProperLine (writeNames names) :=
  ⟨lineName_writeNames fun name hname => (h.fields name hname).1,
    uncommented_writeNames h.uncommented⟩

theorem properLine_writeTransition {t : NamedTransition} (h : WritableTransition t) :
    ProperLine (writeTransition t) :=
  ⟨lineName_writeNames (by simp [h.source.1, h.label.1, h.target.1]),
    uncommented_writeNames (by simp [h.uncommented])⟩

/-! ## The lines of a writable definition -/

theorem properLine_of_mem_writeLines (h : d.Writable) :
    ∀ line ∈ d.writeLines, ProperLine line := by
  have hdone : ProperLine "done" := ⟨by decide +kernel, by decide +kernel⟩
  have hstart : ProperLine (d.start?.getD "") := by
    cases hs : d.start? with
    | none => exact ⟨by decide +kernel, by decide +kernel⟩
    | some name => exact ⟨(h.start name hs).1, (h.start name hs).2.2⟩
  intro line hline
  simp only [writeLines, List.mem_append, List.mem_map, List.mem_cons, List.not_mem_nil,
    or_false] at hline
  rcases hline with ((rfl | rfl) | ⟨t, ht, rfl⟩) | rfl | rfl | rfl
  · exact properLine_writeNames h.states
  · exact properLine_writeNames h.symbols
  · exact properLine_writeTransition (h.transitions t ht)
  · exact hdone
  · exact hstart
  · exact properLine_writeNames h.accepting

/-- The lines with their numbers, counted on from `n`. -/
def numbered (n : Nat) (lines : List String) : List Line :=
  (lines.zipIdx n).map fun (text, k) => ⟨k + 1, some text⟩

theorem numbered_nil (n : Nat) : numbered n [] = [] := rfl

theorem numbered_cons (n : Nat) (text : String) (lines : List String) :
    numbered n (text :: lines) = ⟨n + 1, some text⟩ :: numbered (n + 1) lines := rfl

theorem numbered_append (n : Nat) (lines more : List String) :
    numbered n (lines ++ more) = numbered n lines ++ numbered (n + lines.length) more := by
  simp [numbered, List.zipIdx_append]

theorem significant_map_some {lines : List String} (h : ∀ line ∈ lines, ProperLine line) :
    Line.significant (lines.map some) = numbered 0 lines := by
  have hmap : (lines.map some).zipIdx.map (fun place =>
      (⟨place.2 + 1, place.1.map Text.trim⟩ : Line)) = numbered 0 lines := by
    rw [numbered, List.zipIdx_map, List.map_map]
    refine List.map_congr_left fun place hmem => ?_
    simp [(h place.1 (List.fst_mem_of_mem_zipIdx hmem)).lineName.2]
  rw [Line.significant, hmap, List.filter_eq_self]
  intro line hline
  obtain ⟨⟨text, k⟩, hmem, rfl⟩ := List.mem_map.1 hline
  simpa [Line.isComment, Uncommented] using (h text (List.fst_mem_of_mem_zipIdx hmem)).uncommented

theorem showTransitions_numbered {ts : List NamedTransition} (h : ∀ t ∈ ts, WritableTransition t)
    (n : Nat) : ShowTransitions (numbered n (ts.map writeTransition)) ts := by
  induction ts generalizing n with
  | nil => exact .nil
  | cons t ts ih =>
    rw [List.forall_mem_cons] at h
    rw [List.map_cons, numbered_cons]
    refine .row (showsFields_writeNames (List.cons_ne_nil _ _) ?_) (ih h.2 (n + 1))
    simp [h.1.source, h.1.label, h.1.target]

theorem showsStart_getD {start? : Option String} (h : ∀ name ∈ start?, name ≠ "") :
    ShowsStart (start?.getD "") start? := by
  unfold ShowsStart
  cases start? with
  | none => rfl
  | some name => rw [Option.getD_some, if_neg (h name rfl)]

/-- The lines of a writable definition say all of it. -/
theorem settles_writeLines (h : d.Writable) : Settles (numbered 0 d.writeLines) (.ok d) := by
  have hdone : SpellsDone "done" := isDone_iff.1 (by decide +kernel)
  have hhead : ShowHead (⟨1, some (writeNames d.states)⟩ :: ⟨2, some (writeNames d.symbols)⟩ ::
      (numbered 2 (d.transitions.map writeTransition) ++
        [⟨2 + d.transitions.length + 1, some "done"⟩,
          ⟨2 + d.transitions.length + 1 + 1, some (d.start?.getD "")⟩]))
      { d with accepting := [] } :=
    .intro (showsNames_writeNames h.states) (showsNames_writeNames h.symbols)
      (showTransitions_numbered h.transitions 2) hdone
      (showsStart_getD fun name hname => (h.start name hname).2.1) rfl
  have hfull := @Settles.full (2 + d.transitions.length + 1 + 1 + 1) _ _ [] _ _ hhead
    (showsNames_writeNames h.accepting)
  simpa [writeLines, numbered_append, numbered_cons, numbered_nil] using hfull

theorem lines_write (h : d.Writable) : Text.lines d.write = d.writeLines :=
  Text.lines_eq_iff.2 ⟨fun line hline => (properLine_of_mem_writeLines h line hline).lineName.1,
    .inl rfl⟩

/-- A writable definition is read back. -/
theorem ofText_write_of_writable (h : d.Writable) : ofText d.write = .ok d := by
  rw [ofText, lines_write h]
  refine Settles.readLines_eq ?_
  rw [significant_map_some (properLine_of_mem_writeLines h)]
  exact settles_writeLines h

/-! ## What is read is writable -/

theorem head?_of_isPrefix {cs ds : List Char} {c : Char} (h : cs <+: ds) (hc : cs.head? = some c) :
    ds.head? = some c := by
  obtain ⟨more, rfl⟩ := h
  rw [List.head?_append, hc]
  rfl

/-- The first field of a line begins as the line does. -/
theorem ShowsFields.uncommented (hline : ProperLine text) (h : ShowsFields text names) :
    ∀ name ∈ names.head?, Uncommented name := by
  obtain ⟨pieces, hne, -, htext, hnames⟩ := h
  obtain rfl := forall₂_trimsTo_iff.1 hnames
  obtain ⟨piece, pieces, rfl⟩ := List.exists_cons_of_ne_nil hne
  have hbegin : piece.toList <+: text.toList := by
    rw [htext]
    cases pieces with
    | nil => simp
    | cons next pieces =>
      rw [String.intercalate_cons_cons, String.append_assoc, String.toList_append]
      exact List.prefix_append _ _
  have hhead : ∀ c ∈ piece.toList.head?, text.toList.head? = some c :=
    fun c hc => head?_of_isPrefix hbegin hc
  intro name hname hcomment
  obtain rfl : Text.trim piece = name := Option.some.inj hname
  have htidy := (lineName_iff.1 hline.lineName).2
  have htrim := Text.trimChars_isPrefix fun c hc => htidy.head c (hhead c hc)
  rw [Text.toList_trim] at hcomment
  exact hline.uncommented (hhead '#' (head?_of_isPrefix htrim hcomment))

theorem ShowsFields.fieldName (hline : ProperLine text) (h : ShowsFields text names) :
    ∀ name ∈ names, FieldName name := by
  obtain ⟨pieces, hne, hcomma, htext, hnames⟩ := h
  obtain rfl := forall₂_trimsTo_iff.1 hnames
  have hsplit := Text.splitAt_eq_iff.2 ⟨hne, hcomma, htext⟩
  refine List.forall_mem_map.2 fun piece hpiece => ⟨⟨fun hfeed => ?_, Text.trim_trim piece⟩,
    fun hmem => hcomma piece hpiece (Text.mem_of_mem_trim hmem)⟩
  have hmem := Text.mem_of_mem_splitAt (hsplit ▸ hpiece) (Text.mem_of_mem_trim hfeed)
  exact hline.lineName.1 hmem

theorem writableNames_nil : WritableNames [] := ⟨by simp, by simp, by simp⟩

theorem ShowsNames.writableNames (hline : ProperLine text) (h : ShowsNames text names) :
    WritableNames names := by
  unfold ShowsNames at h
  split at h
  · exact h ▸ writableNames_nil
  · rename_i hne
    refine ⟨h.fieldName hline, ?_, h.uncommented hline⟩
    rintro rfl
    obtain ⟨pieces, -, -, htext, hnames⟩ := h
    obtain ⟨piece, rfl, hpiece⟩ := List.map_eq_singleton_iff.1 (forall₂_trimsTo_iff.1 hnames)
    rw [String.intercalate_singleton] at htext
    rw [← htext, hline.lineName.2] at hpiece
    exact hne hpiece

theorem ShowsFields.writableTransition {source label target : String} (hline : ProperLine text)
    (h : ShowsFields text [source, label, target]) :
    WritableTransition ⟨source, label, target⟩ := by
  have hfields := h.fieldName hline
  simp only [List.forall_mem_cons] at hfields
  exact ⟨hfields.1, hfields.2.1, hfields.2.2.1, h.uncommented hline source rfl⟩

/-- All lines that are texts are proper. -/
def ProperLines (lines : List Line) : Prop :=
  ∀ line ∈ lines, ∀ text ∈ line.text?, ProperLine text

theorem ShowTransitions.writableTransition {lines : List Line} {ts : List NamedTransition}
    (h : ShowTransitions lines ts) (hlines : ProperLines lines) :
    ∀ t ∈ ts, WritableTransition t := by
  induction h with
  | nil => simp
  | blank _ ih => exact ih (List.forall_mem_cons.1 hlines).2
  | row hfields _ ih =>
    obtain ⟨hline, hlines⟩ := List.forall_mem_cons.1 hlines
    rw [List.forall_mem_cons]
    exact ⟨hfields.writableTransition (hline _ rfl), ih hlines⟩

theorem ShowsStart.writable {start? : Option String} (hline : ProperLine text)
    (h : ShowsStart text start?) :
    ∀ name ∈ start?, LineName name ∧ name ≠ "" ∧ Uncommented name := by
  unfold ShowsStart at h
  split at h
  · simp [h]
  · rename_i hne
    intro name hname
    obtain rfl : text = name := Option.some.inj (h.symm.trans hname)
    exact ⟨hline.lineName, hne, hline.uncommented⟩

theorem ShowHead.writable {lines : List Line} (h : ShowHead lines d) (hlines : ProperLines lines) :
    d.Writable := by
  obtain ⟨hstates, hsymbols, hbody, -, hstart, haccepting⟩ := h
  simp only [ProperLines, List.forall_mem_cons, List.forall_mem_append] at hlines
  obtain ⟨hline₁, hline₂, hlines, -, hline₃, -⟩ := hlines
  exact ⟨hstates.writableNames (hline₁ _ rfl), hsymbols.writableNames (hline₂ _ rfl),
    hbody.writableTransition hlines, hstart.writable (hline₃ _ rfl),
    haccepting ▸ writableNames_nil⟩

theorem properLines_significant {raw : List (Option String)}
    (hraw : ∀ line, some line ∈ raw → '\n' ∉ line.toList) : ProperLines (Line.significant raw) := by
  rintro ⟨k, _ | text⟩ hmem _ htext
  · cases htext
  · obtain rfl := Option.some.inj htext
    obtain ⟨text?, hline, heq⟩ := mem_of_mem_significant hmem
    obtain ⟨line, rfl, rfl⟩ := Option.map_eq_some_iff.1 heq.symm
    refine ⟨⟨fun hfeed => hraw line hline (Text.mem_of_mem_trim hfeed), Text.trim_trim line⟩, ?_⟩
    simpa [Line.isComment, Uncommented] using (List.mem_filter.1 hmem).2

/-- Only writable definitions are read. -/
theorem writable_of_readLines {raw : List (Option String)}
    (hraw : ∀ line, some line ∈ raw → '\n' ∉ line.toList) (h : readLines raw = .ok d) :
    d.Writable := by
  have hproper := properLines_significant hraw
  have hresult := settles_or_awaits h (by simp)
  generalize Line.significant raw = lines at hproper hresult
  rcases hresult with hresult | hresult
  · cases hresult with
    | full hhead hnames =>
      obtain ⟨hlines, hrest⟩ := List.forall_mem_append.1 hproper
      have hd := hhead.writable hlines
      exact ⟨hd.states, hd.symbols, hd.transitions, hd.start,
        hnames.writableNames (hrest _ List.mem_cons_self _ rfl)⟩
  · cases hresult with
    | accepting hhead => exact hhead.writable hproper

theorem writable_of_ofBytes {bytes : List UInt8} (h : ofBytes bytes = .ok d) : d.Writable :=
  writable_of_readLines (fun _ hline => Text.feed_not_mem_of_mem_linesOfBytes hline) h

/-- **Writing is the inverse of reading**: a writable definition is read from its written form, and
all that is read is writable. -/
theorem ofText_write (d : Definition) :
    (d.Writable → ofText d.write = .ok d) ∧
    (∀ text, ofText text = .ok d → d.Writable ∧ ofText d.write = .ok d) ∧
    (∀ bytes, ofBytes bytes = .ok d → d.Writable ∧ ofBytes (Text.encode d.write) = .ok d) := by
  refine ⟨ofText_write_of_writable, fun text h => ?_, fun bytes h => ?_⟩
  · have hd : d.Writable := writable_of_ofBytes ((ofBytes_encode text).trans h)
    exact ⟨hd, ofText_write_of_writable hd⟩
  · have hd := writable_of_ofBytes h
    exact ⟨hd, (ofBytes_encode d.write).trans (ofText_write_of_writable hd)⟩

/-- Names that are odd for the format: empty ones among others, `done` and `ε`, some that begin with
`#` where no line does, a carriage return within a name, and a start state with commas. -/
def oddNames : Definition where
  states := ["done", "", "#"]
  symbols := ["a\rb", "ε"]
  transitions := [⟨"", "", ""⟩, ⟨"done", "#", "x y"⟩]
  start? := some "A,#,"
  accepting := ["", ""]

/-- The written form of `oddNames` shows all of them, and bytes after it do not matter. -/
theorem ofText_write_oddNames : oddNames.Writable ∧ ofText oddNames.write = .ok oddNames ∧
    ofBytes (Text.encode oddNames.write ++ [255]) = .ok oddNames ∧
    ofBytes (Text.encode oddNames.write) = .ok oddNames := by
  obtain ⟨hwrite, htext, hbytes⟩ := ofText_write oddNames
  have h : oddNames.Writable := by decide +kernel
  have hmore : ofBytes (Text.encode oddNames.write ++ [255]) = .ok oddNames := by decide +kernel
  exact ⟨h, (htext _ (hwrite h)).2, hmore, (hbytes _ hmore).2⟩

end FiniteAutomata.Definition
