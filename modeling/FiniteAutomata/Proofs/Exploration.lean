import Mathlib.Data.List.Induction
import Mathlib.Data.List.Nodup
import Mathlib.Data.List.Shortlex

/-!
# Exploring words breadth first

Every word has a `value`, and one word is to be listed for each value that some word has. Starting
from the empty word, the listed words are taken in order, and each is extended by every symbol: an
extension is listed at the end unless its value is there already. `listed n` is the list after `n`
words have been extended.

* `Ordered` is the invariant (`ordered_listed`): the words are listed in shortlex order, with
  distinct values, and every extension made so far has the value of a listed word that is no
  greater.
* `Ordered.least`: once all listed words have been extended, each word is at least the listed word
  of its value. The listed words are thus the least ones of their values.
* `listed_of_length_le`: then nothing is listed any more.
* `extend_eq_self`: a word without new extensions can be passed over.
* `listed_congr`: values that tell the same words apart list the same words.
-/

namespace FiniteAutomata.Exploration

open List (Shortlex shortlex_def)

/-! ## The shortlex order -/

section Order

variable {α : Type} {r : α → α → Prop} {u v w : List α} {a b : α}

theorem shortlex_trans [IsTrans α r] (huv : Shortlex r u v) (hvw : Shortlex r v w) :
    Shortlex r u w := by
  rw [shortlex_def] at *
  rcases huv with huv | ⟨hl, huv⟩ <;> rcases hvw with hvw | ⟨hl', hvw⟩
  · exact .inl (huv.trans hvw)
  · exact .inl (hl' ▸ huv)
  · exact .inl (hl ▸ hvw)
  · exact .inr ⟨hl.trans hl', List.lex_trans (fun h h' => IsTrans.trans _ _ _ h h') huv hvw⟩

theorem lex_snoc (hl : u.length = v.length) (h : List.Lex r u v) :
    List.Lex r (u ++ [a]) (v ++ [b]) := by
  induction h with
  | nil => cases hl
  | cons _ ih => exact .cons (ih (Nat.succ.inj hl))
  | rel h => exact .rel h

/-- Longer words keep the order, whatever their last symbols are. -/
theorem shortlex_snoc (h : Shortlex r u v) : Shortlex r (u ++ [a]) (v ++ [b]) := by
  rw [shortlex_def] at *
  simp only [List.length_append, List.length_singleton]
  rcases h with h | ⟨hl, h⟩
  · exact .inl (by omega)
  · exact .inr ⟨by omega, lex_snoc hl h⟩

theorem shortlex_snoc_of_rel (h : r a b) : Shortlex r (u ++ [a]) (u ++ [b]) :=
  .append_left ((List.shortlex_singleton_iff a b).2 h) u

/-- `u` is `v` or comes before it in shortlex order. -/
def ShortlexLE (r : α → α → Prop) (u v : List α) : Prop := u = v ∨ Shortlex r u v

theorem ShortlexLE.refl (u : List α) : ShortlexLE r u u := .inl rfl

theorem ShortlexLE.trans [IsTrans α r] (huv : ShortlexLE r u v) (hvw : ShortlexLE r v w) :
    ShortlexLE r u w := by
  rcases huv with rfl | huv
  · exact hvw
  · rcases hvw with rfl | hvw
    · exact .inr huv
    · exact .inr (shortlex_trans huv hvw)

theorem ShortlexLE.antisymm [Std.Asymm r] (huv : ShortlexLE r u v) (hvu : ShortlexLE r v u) :
    u = v := by
  rcases huv with heq | huv
  · exact heq
  · rcases hvu with heq | hvu
    · exact heq.symm
    · exact absurd hvu (Std.Asymm.asymm _ _ huv)

theorem ShortlexLE.snoc (h : ShortlexLE r u v) : ShortlexLE r (u ++ [a]) (v ++ [a]) := by
  rcases h with rfl | h
  · exact .refl _
  · exact .inr (shortlex_snoc h)

end Order

/-! ## Listing words -/

section

variable {α σ : Type} [DecidableEq σ] (value : List α → σ) (symbols : List α)

/-- Lists a word, unless one of the same value is listed. -/
def note (W : List (List α)) (w : List α) : List (List α) :=
  if value w ∈ W.map value then W else W ++ [w]

/-- Lists the extensions of a word by the given symbols. -/
def extend (W : List (List α)) (u : List α) (as : List α) : List (List α) :=
  as.foldl (fun W a => note value W (u ++ [a])) W

/-- The words listed after the first `n` have been extended by all symbols. -/
def listed : Nat → List (List α)
  | 0 => [[]]
  | n + 1 =>
    match (listed n)[n]? with
    | some u => extend value (listed n) u symbols
    | none => listed n

variable {value symbols} {W : List (List α)} {u w : List α} {as : List α} {n : Nat}

theorem getElem?_of_prefix {W' : List (List α)} (h : W <+: W') (hu : W[n]? = some u) :
    W'[n]? = some u := by
  obtain ⟨V, rfl⟩ := h
  rw [List.getElem?_append_left (List.getElem?_eq_some_iff.1 hu).1, hu]

theorem note_of_mem (h : value w ∈ W.map value) : note value W w = W := if_pos h

theorem note_of_not_mem (h : value w ∉ W.map value) : note value W w = W ++ [w] := if_neg h

theorem prefix_note : W <+: note value W w := by
  unfold note
  split
  · exact List.prefix_rfl
  · exact List.prefix_append W [w]

theorem getElem?_note (hu : W[n]? = some u) : (note value W w)[n]? = some u :=
  getElem?_of_prefix prefix_note hu

theorem prefix_extend : W <+: extend value W u as := by
  induction as generalizing W with
  | nil => exact List.prefix_rfl
  | cons a as ih => exact prefix_note.trans ih

/-- Nothing is listed where all extensions have known values. -/
theorem extend_eq_self (h : ∀ a ∈ as, value (u ++ [a]) ∈ W.map value) :
    extend value W u as = W := by
  induction as with
  | nil => rfl
  | cons a as ih =>
    unfold extend
    rw [List.foldl_cons, note_of_mem (h a List.mem_cons_self)]
    exact ih fun b hb => h b (List.mem_cons_of_mem a hb)

theorem listed_succ (h : (listed value symbols n)[n]? = some u) :
    listed value symbols (n + 1) = extend value (listed value symbols n) u symbols := by
  rw [listed, h]

theorem listed_succ_of_none (h : (listed value symbols n)[n]? = none) :
    listed value symbols (n + 1) = listed value symbols n := by
  rw [listed, h]

/-- Nothing is listed any more once all listed words have been extended. -/
theorem listed_of_length_le (h : (listed value symbols n).length ≤ n) {m : Nat} (hm : n ≤ m) :
    listed value symbols m = listed value symbols n := by
  induction m, hm using Nat.le_induction with
  | base => rfl
  | succ m hm ih =>
    have hnone : (listed value symbols m)[m]? = none :=
      List.getElem?_eq_none (by rw [ih]; exact h.trans hm)
    rw [listed_succ_of_none hnone, ih]

end

/-! ## The order of the listed words -/

section

variable {α σ : Type} {value : List α → σ} {symbols : List α} {r : α → α → Prop}
  {W : List (List α)} {u : List α} {as : List α} {n : Nat}

/-- Some listed word has the value of `v` and is no greater. -/
def Covers (value : List α → σ) (r : α → α → Prop) (W : List (List α)) (v : List α) : Prop :=
  ∃ w ∈ W, value w = value v ∧ ShortlexLE r w v

theorem Covers.mono {W W' : List (List α)} {v : List α} (h : Covers value r W v) (hW : W <+: W') :
    Covers value r W' v := by
  obtain ⟨w, hw, hv⟩ := h
  exact ⟨w, hW.subset hw, hv⟩

/-- What holds once the first `n` words listed have been extended. -/
structure Ordered (value : List α → σ) (symbols : List α) (r : α → α → Prop) (n : Nat)
    (W : List (List α)) : Prop where
  root : W[0]? = some []
  nodup : (W.map value).Nodup
  increasing : W.Pairwise (Shortlex r)
  covers : ∀ m < n, ∀ u, W[m]? = some u → ∀ a ∈ symbols, Covers value r W (u ++ [a])
  recent : ∀ w ∈ W, w = [] ∨ ∃ m < n, ∃ u, W[m]? = some u ∧ ∃ a ∈ symbols, w = u ++ [a]
  letters : ∀ w ∈ W, ∀ a ∈ w, a ∈ symbols

/-- Every listed word comes before the extensions of the first word not yet extended. -/
theorem Ordered.shortlex_extension (h : Ordered value symbols r n W) (hu : W[n]? = some u)
    {w : List α} (hw : w ∈ W) (a : α) : Shortlex r w (u ++ [a]) := by
  rcases h.recent w hw with rfl | ⟨m, hm, v, hv, b, -, rfl⟩
  · exact .of_length_lt (by simp)
  · obtain ⟨hml, rfl⟩ := List.getElem?_eq_some_iff.1 hv
    obtain ⟨hnl, rfl⟩ := List.getElem?_eq_some_iff.1 hu
    exact shortlex_snoc (List.pairwise_iff_getElem.1 h.increasing m n hml hnl hm)

theorem Ordered.lt_iff [Std.Asymm r] (h : Ordered value symbols r n W) {k m : Nat} {v : List α}
    (hu : W[k]? = some u) (hv : W[m]? = some v) : k < m ↔ Shortlex r u v := by
  obtain ⟨hk, rfl⟩ := List.getElem?_eq_some_iff.1 hu
  obtain ⟨hm, rfl⟩ := List.getElem?_eq_some_iff.1 hv
  have hinc := List.pairwise_iff_getElem.1 h.increasing
  refine ⟨hinc k m hk hm, fun hlt => ?_⟩
  rcases Nat.lt_trichotomy k m with hkm | rfl | hmk
  · exact hkm
  · exact absurd hlt (Std.Asymm.asymm _ _ hlt)
  · exact absurd hlt (Std.Asymm.asymm _ _ (hinc m k hm hk hmk))

/-- **The listed words are the least ones of their values**, once all of them have been extended. -/
theorem Ordered.least [IsTrans α r] (h : Ordered value symbols r n W) (hn : W.length ≤ n)
    (hvalue : ∀ u v a, value u = value v → value (u ++ [a]) = value (v ++ [a]))
    {v : List α} (hv : ∀ a ∈ v, a ∈ symbols) : Covers value r W v := by
  induction v using List.reverseRecOn with
  | nil => exact ⟨[], List.mem_of_getElem? h.root, rfl, .refl _⟩
  | append_singleton v a ih =>
    obtain ⟨w, hw, hwv, hle⟩ := ih fun b hb => hv b (List.mem_append_left _ hb)
    obtain ⟨m, hm, rfl⟩ := List.mem_iff_getElem.1 hw
    have ha : a ∈ symbols := hv a (List.mem_append_right v (List.mem_singleton_self a))
    obtain ⟨w', hw', hval, hle'⟩ :=
      h.covers m (hm.trans_le hn) _ (List.getElem?_eq_getElem hm) a ha
    exact ⟨w', hw', hval.trans (hvalue _ _ a hwv), hle'.trans hle.snoc⟩

/-- What listing the extensions of `u` by `as` makes of `W`. -/
structure Extended (value : List α → σ) (r : α → α → Prop) (W : List (List α)) (u : List α)
    (as : List α) (W' : List (List α)) : Prop where
  isPrefix : W <+: W'
  nodup : (W'.map value).Nodup
  increasing : W'.Pairwise (Shortlex r)
  covers : ∀ a ∈ as, Covers value r W' (u ++ [a])
  recent : ∀ w ∈ W', w ∈ W ∨ ∃ a ∈ as, w = u ++ [a]

variable [DecidableEq σ]

/-- A new word that comes after all listed ones is listed in order. -/
theorem extended_note {a : α} (hnodup : (W.map value).Nodup) (hinc : W.Pairwise (Shortlex r))
    (hlast : ∀ w ∈ W, Shortlex r w (u ++ [a])) :
    Extended value r W u [a] (note value W (u ++ [a])) := by
  by_cases hmem : value (u ++ [a]) ∈ W.map value
  · rw [note_of_mem hmem]
    refine ⟨List.prefix_rfl, hnodup, hinc, fun b hb => ?_, fun w hw => .inl hw⟩
    obtain rfl := List.mem_singleton.1 hb
    obtain ⟨w, hw, hv⟩ := List.mem_map.1 hmem
    exact ⟨w, hw, hv, .inr (hlast w hw)⟩
  · rw [note_of_not_mem hmem]
    refine ⟨List.prefix_append _ _, ?_, ?_, fun b hb => ?_, fun w hw => ?_⟩
    · rw [List.map_append, List.map_singleton, ← List.concat_eq_append]
      exact hnodup.concat hmem
    · refine List.pairwise_append.2 ⟨hinc, List.pairwise_singleton _ _, fun w hw v hv => ?_⟩
      exact List.mem_singleton.1 hv ▸ hlast w hw
    · obtain rfl := List.mem_singleton.1 hb
      exact ⟨_, List.mem_append_right W (List.mem_singleton_self _), rfl, .refl _⟩
    · refine (List.mem_append.1 hw).imp id fun hw => ⟨a, List.mem_singleton_self a, ?_⟩
      exact List.mem_singleton.1 hw

theorem extended_extend (hnodup : (W.map value).Nodup) (hinc : W.Pairwise (Shortlex r))
    (has : as.Pairwise r) (hlast : ∀ w ∈ W, ∀ a ∈ as, Shortlex r w (u ++ [a])) :
    Extended value r W u as (extend value W u as) := by
  induction as generalizing W with
  | nil => exact ⟨List.prefix_rfl, hnodup, hinc, fun a ha => absurd ha List.not_mem_nil,
      fun w hw => .inl hw⟩
  | cons a as ih =>
    rw [List.pairwise_cons] at has
    have h1 := extended_note hnodup hinc fun w hw => hlast w hw a List.mem_cons_self
    have h2 := ih h1.nodup h1.increasing has.2 fun w hw b hb => by
      rcases h1.recent w hw with hw | ⟨c, hc, rfl⟩
      · exact hlast w hw b (List.mem_cons_of_mem a hb)
      · exact shortlex_snoc_of_rel (List.mem_singleton.1 hc ▸ has.1 b hb)
    refine ⟨h1.isPrefix.trans h2.isPrefix, h2.nodup, h2.increasing, fun b hb => ?_, fun w hw => ?_⟩
    · rcases List.mem_cons.1 hb with rfl | hb
      · exact (h1.covers b (List.mem_singleton_self b)).mono h2.isPrefix
      · exact h2.covers b hb
    · rcases h2.recent w hw with hw | ⟨b, hb, rfl⟩
      · refine (h1.recent w hw).imp id fun ⟨c, hc, hw⟩ => ⟨c, ?_, hw⟩
        exact List.mem_singleton.1 hc ▸ List.mem_cons_self
      · exact .inr ⟨b, List.mem_cons_of_mem a hb, rfl⟩

theorem Ordered.extend (hsym : symbols.Pairwise r) (h : Ordered value symbols r n W)
    (hu : W[n]? = some u) : Ordered value symbols r (n + 1) (extend value W u symbols) := by
  have hext := extended_extend h.nodup h.increasing hsym
    fun w hw a _ => h.shortlex_extension hu hw a
  have hget : ∀ {m v}, W[m]? = some v → (Exploration.extend value W u symbols)[m]? = some v :=
    getElem?_of_prefix hext.isPrefix
  refine ⟨hget h.root, hext.nodup, hext.increasing, fun m hm v hv a ha => ?_, fun w hw => ?_,
    fun w hw a ha => ?_⟩
  · rcases (by omega : m < n ∨ m = n) with hm | rfl
    · have hml : m < W.length := hm.trans (List.getElem?_eq_some_iff.1 hu).1
      rw [hget (List.getElem?_eq_getElem hml)] at hv
      exact (h.covers m hm v ((List.getElem?_eq_getElem hml).trans hv) a ha).mono hext.isPrefix
    · rw [hget hu] at hv
      obtain rfl := Option.some.inj hv
      exact hext.covers a ha
  · rcases hext.recent w hw with hw | ⟨a, ha, rfl⟩
    · refine (h.recent w hw).imp id fun ⟨m, hm, v, hv, hw⟩ => ?_
      exact ⟨m, by omega, v, hget hv, hw⟩
    · exact .inr ⟨n, by omega, u, hget hu, a, ha, rfl⟩
  · rcases hext.recent w hw with hw | ⟨b, hb, rfl⟩
    · exact h.letters w hw a ha
    · rcases List.mem_append.1 ha with ha | ha
      · exact h.letters u (List.mem_of_getElem? hu) a ha
      · exact List.mem_singleton.1 ha ▸ hb

theorem ordered_listed (hsym : symbols.Pairwise r) (n : Nat) :
    Ordered value symbols r n (listed value symbols n) := by
  induction n with
  | zero =>
    refine ⟨rfl, List.nodup_singleton _, List.pairwise_singleton _ _,
      fun m hm => by omega, fun w hw => .inl (List.mem_singleton.1 hw),
      fun w hw a ha => ?_⟩
    exact absurd (List.mem_singleton.1 hw ▸ ha) List.not_mem_nil
  | succ n ih =>
    cases hu : (listed value symbols n)[n]? with
    | some u =>
      rw [listed_succ hu]
      exact ih.extend hsym hu
    | none =>
      rw [listed_succ_of_none hu]
      refine ⟨ih.root, ih.nodup, ih.increasing, fun m hm v hv a ha => ?_, fun w hw => ?_,
        ih.letters⟩
      · rcases (by omega : m < n ∨ m = n) with hm | rfl
        · exact ih.covers m hm v hv a ha
        · rw [hu] at hv
          cases hv
      · refine (ih.recent w hw).imp id fun ⟨m, hm, hw⟩ => ⟨m, by omega, hw⟩

end

/-! ## Values that tell the same words apart -/

section

variable {α σ τ : Type} [DecidableEq σ] [DecidableEq τ] {value : List α → σ}
  {value' : List α → τ} {symbols as : List α} {W : List (List α)} {u w : List α}

/-- All symbols of the word are among the given ones. -/
def Over (symbols w : List α) : Prop := ∀ a ∈ w, a ∈ symbols

/-- The values tell the same words over the given symbols apart. -/
def SameKernel (symbols : List α) (value : List α → σ) (value' : List α → τ) : Prop :=
  ∀ u v, Over symbols u → Over symbols v → (value u = value v ↔ value' u = value' v)

theorem over_snoc {a : α} (hw : Over symbols w) (ha : a ∈ symbols) : Over symbols (w ++ [a]) := by
  intro b hb
  rcases List.mem_append.1 hb with hb | hb
  · exact hw b hb
  · exact List.mem_singleton.1 hb ▸ ha

theorem over_of_mem_listed {n : Nat} (hw : w ∈ listed value symbols n) : Over symbols w :=
  (ordered_listed (List.pairwise_of_forall fun _ _ => trivial) n).letters w hw

theorem note_congr (h : SameKernel symbols value value') (hW : ∀ v ∈ W, Over symbols v)
    (hw : Over symbols w) : note value W w = note value' W w := by
  refine if_congr ?_ rfl rfl
  rw [List.mem_map, List.mem_map]
  exact exists_congr fun v => and_congr_right fun hv => h v w (hW v hv) hw

theorem extend_congr (h : SameKernel symbols value value') (hW : ∀ v ∈ W, Over symbols v)
    (hu : Over symbols u) (has : ∀ a ∈ as, a ∈ symbols) :
    extend value W u as = extend value' W u as := by
  induction as generalizing W with
  | nil => rfl
  | cons a as ih =>
    have hua := over_snoc hu (has a List.mem_cons_self)
    have hnote := note_congr h hW hua
    have hW' : ∀ v ∈ note value W (u ++ [a]), Over symbols v := by
      intro v hv
      unfold note at hv
      split at hv
      · exact hW v hv
      · rcases List.mem_append.1 hv with hv | hv
        · exact hW v hv
        · exact List.mem_singleton.1 hv ▸ hua
    unfold extend at ih ⊢
    rw [List.foldl_cons, List.foldl_cons, ← hnote]
    exact ih hW' fun b hb => has b (List.mem_cons_of_mem a hb)

/-- **Which words are listed depends on nothing but which of them have the same value.** -/
theorem listed_congr (h : SameKernel symbols value value') (n : Nat) :
    listed value symbols n = listed value' symbols n := by
  induction n with
  | zero => rfl
  | succ n ih =>
    cases hu : (listed value symbols n)[n]? with
    | some u =>
      have hu' : (listed value' symbols n)[n]? = some u := ih ▸ hu
      rw [listed_succ hu, listed_succ hu', ← ih]
      exact extend_congr h (fun v hv => over_of_mem_listed hv)
        (over_of_mem_listed (List.mem_of_getElem? hu)) fun _ ha => ha
    | none => rw [listed_succ_of_none hu, listed_succ_of_none (ih ▸ hu), ih]

end

end FiniteAutomata.Exploration
