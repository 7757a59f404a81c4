/-!
# Worklists

A search keeps a `Worklist` of what it has found: entries are added at the back, served from the
front, and never dropped, so the entries that are `done` are the record of what the search has
processed and the others are `pending`.

`exhaust` runs a search to its end: it repeats a step until nothing is left to do. The number of
repetitions is bounded in advance.

* `exhaust_induction`: what every step keeps holds of the result.
* `exhaust_congr`: steps that agree on all values that the search comes to give the same result.
* `idle_exhaust`: if a measure decreases with every step, as many steps as its first value are
  enough for the result to be idle.

`Loop` is the same repetition without a bound, as a relation that holds of the loops that end.
A loop ends if its record of what it has served cannot outgrow a bound (`exists_loop`), which for
one that serves a queue is the list of entries that are done (`exists_loop_queue`).
-/

namespace FiniteAutomata

/-- What a search has found, in order of discovery, of which the first `served` are processed. -/
structure Worklist (α : Type) where
  entries : Array α
  served : Nat
  served_le : served ≤ entries.size

namespace Worklist

variable {α : Type}

/-- The worklist of the given entries, none of them served. -/
def ofList (entries : List α) : Worklist α := ⟨entries.toArray, 0, Nat.zero_le _⟩

/-- Adds an entry at the back. -/
def push : Worklist α → α → Worklist α
  | ⟨entries, served, served_le⟩, x =>
    ⟨entries.push x, served, Array.size_push x ▸ Nat.le_succ_of_le served_le⟩

/-- Serves the first pending entry. -/
def pop? (w : Worklist α) : Option (α × Worklist α) :=
  if h : w.served < w.entries.size then
    some (w.entries[w.served], ⟨w.entries, w.served + 1, h⟩)
  else none

/-- The entry to be served next, if there is one. -/
def next? (w : Worklist α) : Option α := w.pop?.map Prod.fst

/-- Whether all entries are served. -/
def isDone (w : Worklist α) : Bool := decide (w.entries.size ≤ w.served)

/-- The entries still to be served, in order. -/
def pending (w : Worklist α) : List α := w.entries.toList.drop w.served

/-- The entries served so far, in order. -/
def done (w : Worklist α) : List α := w.entries.toList.take w.served

theorem done_append_pending (w : Worklist α) : w.done ++ w.pending = w.entries.toList :=
  List.take_append_drop _ _

@[simp] theorem pending_ofList (xs : List α) : (ofList xs).pending = xs := rfl

@[simp] theorem done_ofList (xs : List α) : (ofList xs).done = [] := rfl

@[simp] theorem pending_push (w : Worklist α) (x : α) :
    (w.push x).pending = w.pending ++ [x] := by
  obtain ⟨entries, served, served_le⟩ := w
  simp only [push, pending, Array.toList_push]
  exact List.drop_append_of_le_length served_le

@[simp] theorem done_push (w : Worklist α) (x : α) : (w.push x).done = w.done := by
  obtain ⟨entries, served, served_le⟩ := w
  simp only [push, done, Array.toList_push]
  exact List.take_append_of_le_length served_le

theorem prefix_push (w : Worklist α) (x : α) : w.entries.toList <+: (w.push x).entries.toList := by
  obtain ⟨entries, served, served_le⟩ := w
  rw [push, Array.toList_push]
  exact List.prefix_append _ _

theorem entries_pop? {w v : Worklist α} {x : α} (h : w.pop? = some (x, v)) :
    v.entries = w.entries := by
  rw [pop?] at h
  split at h
  · obtain ⟨-, rfl⟩ := Prod.mk.inj (Option.some.inj h)
    rfl
  · cases h

theorem length_done (w : Worklist α) : w.done.length = w.served := by
  rw [done, List.length_take]
  exact Nat.min_eq_left w.served_le

theorem isDone_iff {w : Worklist α} : w.isDone = true ↔ w.pending = [] := by
  rw [isDone, decide_eq_true_iff, pending, List.drop_eq_nil_iff]
  rfl

theorem pop?_eq_none_iff {w : Worklist α} : w.pop? = none ↔ w.pending = [] := by
  rw [pop?, ← isDone_iff, isDone, decide_eq_true_iff]
  split
  · simpa using ‹_›
  · exact ⟨fun _ => Nat.not_lt.1 ‹_›, fun _ => rfl⟩

theorem exists_pop? {w : Worklist α} (h : w.isDone = false) : ∃ x v, w.pop? = some (x, v) := by
  cases hpop : w.pop? with
  | none =>
    rw [isDone_iff.2 (pop?_eq_none_iff.1 hpop)] at h
    cases h
  | some popped => exact ⟨popped.1, popped.2, rfl⟩

/-- Serving moves the first pending entry to the entries that are done. -/
theorem pop?_eq_some {w v : Worklist α} {x : α} (h : w.pop? = some (x, v)) :
    w.pending = x :: v.pending ∧ v.done = w.done ++ [x] := by
  rw [pop?] at h
  split at h
  · obtain ⟨rfl, rfl⟩ := Prod.mk.inj (Option.some.inj h)
    have hs : w.served < w.entries.toList.length := ‹_›
    exact ⟨List.drop_eq_getElem_cons hs, List.take_succ_eq_append_getElem hs⟩
  · exact absurd h (by simp)

end Worklist

/-! ## Running to the end -/

/-- Repeats `step` until `idle`, at most `bound` times. -/
def exhaust {σ : Type} (idle : σ → Bool) (step : σ → σ) : Nat → σ → σ
  | 0, x => x
  | bound + 1, x => if idle x then x else exhaust idle step bound (step x)

/-- Repeats a step that may fail in the same way, up to the first failure. -/
def exhaust? {σ : Type} (idle : σ → Bool) (step? : σ → Option σ) : Nat → σ → Option σ
  | 0, x => some x
  | bound + 1, x => if idle x then some x else (step? x).bind (exhaust? idle step? bound)

section

variable {σ : Type} {idle : σ → Bool} {step : σ → σ}

theorem exhaust_of_idle {x : σ} (h : idle x = true) (n : Nat) : exhaust idle step n x = x := by
  cases n with
  | zero => rfl
  | succ n => rw [exhaust, if_pos h]

/-- What every step keeps holds of the result. -/
theorem exhaust_induction {P : σ → Prop} (hstep : ∀ x, P x → idle x = false → P (step x))
    {x : σ} (hx : P x) (n : Nat) : P (exhaust idle step n x) := by
  induction n generalizing x with
  | zero => exact hx
  | succ n ih =>
    rw [exhaust]
    split
    · exact hx
    · exact ih (hstep x hx (Bool.eq_false_iff.2 ‹_›))

/-- The result is idle if a measure that decreases with every step allows for it. -/
theorem idle_exhaust {P : σ → Prop} {μ : σ → Nat}
    (hstep : ∀ x, P x → idle x = false → P (step x) ∧ μ (step x) < μ x)
    {x : σ} (hx : P x) {n : Nat} (hn : μ x ≤ n) : idle (exhaust idle step n x) = true := by
  induction n generalizing x with
  | zero =>
    rw [exhaust]
    cases h : idle x with
    | true => rfl
    | false => exact absurd (hstep x hx h).2 (by rw [Nat.le_zero.1 hn]; exact Nat.not_lt_zero _)
  | succ n ih =>
    rw [exhaust]
    split
    · assumption
    · have := hstep x hx (Bool.eq_false_iff.2 ‹_›)
      exact ih this.1 (Nat.le_of_lt_succ (Nat.lt_of_lt_of_le this.2 hn))

/-- Steps that agree wherever a search comes to give the same result. -/
theorem exhaust_congr {P : σ → Prop} {step' : σ → σ}
    (hstep : ∀ x, P x → idle x = false → P (step x))
    (heq : ∀ x, P x → idle x = false → step' x = step x) {x : σ} (hx : P x) (n : Nat) :
    exhaust idle step' n x = exhaust idle step n x := by
  induction n generalizing x with
  | zero => rfl
  | succ n ih =>
    rw [exhaust, exhaust]
    split
    · rfl
    · have hidle := Bool.eq_false_iff.2 ‹_›
      rw [heq x hx hidle]
      exact ih (hstep x hx hidle)

/-- Nothing fails on the way to a result with `Q` if no step to a value with `Q` does, and `Q` is
inherited backwards. -/
theorem exhaust?_eq_some {P Q : σ → Prop} {step? : σ → Option σ}
    (hstep : ∀ x, P x → idle x = false → P (step x))
    (hback : ∀ x, P x → idle x = false → Q (step x) → Q x)
    (hstep? : ∀ x, P x → idle x = false → Q (step x) → step? x = some (step x))
    {x : σ} (hx : P x) {n : Nat} (hn : Q (exhaust idle step n x)) :
    exhaust? idle step? n x = some (exhaust idle step n x) ∧ Q x := by
  induction n generalizing x with
  | zero => exact ⟨rfl, hn⟩
  | succ n ih =>
    rw [exhaust] at hn ⊢
    rw [exhaust?]
    by_cases h : idle x = true
    · simp only [if_pos h] at hn ⊢
      exact ⟨trivial, hn⟩
    · simp only [if_neg h] at hn ⊢
      have hidle := Bool.eq_false_iff.2 h
      obtain ⟨heq, hq⟩ := ih (hstep x hx hidle) hn
      rw [hstep? x hx hidle hq]
      exact ⟨heq, hback x hx hidle hq⟩

/-! ## Loops -/

/-- Repeating `step` until `idle`, from `x` on, passes through the values `xs` and ends at `y`. -/
inductive Loop (idle : σ → Bool) (step : σ → σ) : σ → List σ → σ → Prop
  | stop {x : σ} : idle x = true → Loop idle step x [] x
  | pass {x y : σ} {xs : List σ} :
    idle x = false → Loop idle step (step x) xs y → Loop idle step x (x :: xs) y

/-- As many steps as the loop has passes are enough to run it to its end. -/
theorem Loop.exhaust_eq {x y : σ} {xs : List σ} (h : Loop idle step x xs y) {n : Nat}
    (hn : xs.length ≤ n) : exhaust idle step n x = y := by
  induction h generalizing n with
  | stop hidle => exact exhaust_of_idle hidle n
  | pass hidle _ ih =>
    cases n with
    | zero => exact absurd hn (Nat.not_succ_le_zero _)
    | succ n =>
      rw [exhaust, if_neg (Bool.eq_false_iff.1 hidle)]
      exact ih (Nat.le_of_succ_le_succ hn)

theorem Loop.idle_last {x y : σ} {xs : List σ} (h : Loop idle step x xs y) : idle y = true := by
  induction h with
  | stop hidle => exact hidle
  | pass _ _ ih => exact ih

/-- What is inherited backwards holds in every pass if it holds in the end. -/
theorem Loop.of_last {P : σ → Prop} (hback : ∀ x, idle x = false → P (step x) → P x) {x y : σ}
    {xs : List σ} (h : Loop idle step x xs y) (hy : P y) : P x ∧ ∀ z ∈ xs, P z := by
  induction h with
  | stop => exact ⟨hy, fun _ hz => absurd hz List.not_mem_nil⟩
  | pass hidle _ ih =>
    obtain ⟨hnext, hrest⟩ := ih hy
    have hx := hback _ hidle hnext
    exact ⟨hx, List.forall_mem_cons.2 ⟨hx, hrest⟩⟩

/-- A loop ends if every pass adds to a record that stays within a bound, and in the end the record
has what all of them served, `f x` in the pass through `x`. -/
theorem exists_loop {α : Type} {P : List α → σ → Prop} {f : σ → α} {bound : Nat}
    (hstep : ∀ log x, P log x → idle x = false →
      P (log ++ [f x]) (step x) ∧ log.length < bound)
    {log : List α} {x : σ} (hx : P log x) :
    ∃ xs y, Loop idle step x xs y ∧ P (log ++ xs.map f) y ∧ xs.length ≤ bound - log.length := by
  cases hidle : idle x with
  | true => exact ⟨[], x, .stop hidle, by rwa [List.map_nil, List.append_nil], Nat.zero_le _⟩
  | false =>
    obtain ⟨hnext, hlt⟩ := hstep log x hx hidle
    have hlength : (log ++ [f x]).length = log.length + 1 := List.length_append
    obtain ⟨xs, y, hloop, hy, hle⟩ := exists_loop hstep hnext
    refine ⟨x :: xs, y, .pass hidle hloop, ?_, ?_⟩
    · rwa [List.map_cons, List.append_cons]
    · rw [List.length_cons]
      omega
termination_by bound - log.length
decreasing_by omega

/-- A loop that serves a queue ends if what it has served stays within a bound, and its passes serve
the entries that are done in the end, one after the other. -/
theorem exists_loop_queue {α : Type} {P : σ → Prop} {queue : σ → Worklist α} {bound : Nat}
    (hstep : ∀ x, P x → (queue x).isDone = false → P (step x) ∧ (queue x).served < bound)
    (hserve : ∀ x e w, (queue x).pop? = some (e, w) → (queue (step x)).done = w.done)
    {x : σ} (hx : P x) (hnew : (queue x).done = []) :
    let y := exhaust (fun x => (queue x).isDone) step bound x
    ∃ xs, Loop (fun x => (queue x).isDone) step x xs y ∧
      xs.map (fun x => (queue x).next?) = (queue y).done.map some := by
  have hall : ∀ log x, log = (queue x).done.map some ∧ P x → (queue x).isDone = false →
      (log ++ [(queue x).next?] = (queue (step x)).done.map some ∧ P (step x)) ∧
        log.length < bound := by
    rintro log x ⟨rfl, hx⟩ hidle
    obtain ⟨hnext, hlt⟩ := hstep x hx hidle
    obtain ⟨e, w, hpop⟩ := Worklist.exists_pop? hidle
    refine ⟨⟨?_, hnext⟩, ?_⟩
    · rw [hserve x e w hpop, (Worklist.pop?_eq_some hpop).2, Worklist.next?, hpop, List.map_append,
        List.map_singleton, Option.map_some]
    · rwa [List.length_map, Worklist.length_done]
  have hinit : [] = (queue x).done.map some ∧ P x := ⟨by rw [hnew, List.map_nil], hx⟩
  obtain ⟨xs, y, hloop, ⟨hlog, -⟩, hlength⟩ := exists_loop hall hinit
  obtain rfl := hloop.exhaust_eq hlength
  exact ⟨xs, hloop, hlog⟩

end

end FiniteAutomata
