import FiniteAutomata.Dfa.Arena
import FiniteAutomata.Nfa.Closure

/-!
# The subset construction

`Nfa.determinize` makes a deterministic automaton that accepts the same words. Its states are sets
of states of the given one. Starting from the epsilon closure of the start state, each set that is
discovered is expanded once, in order of discovery: its successor on a symbol is the epsilon
closure of its moves on that symbol. An empty successor is replaced by the sink, which is added
when it is first needed, is never expanded, and in the end moves to itself on every symbol.

An automaton with `n` states has `2 ^ n` sets of states, so at most that many expansions take
place.

Every row of the result is meant to be filled in alphabet order. `Nfa.determinize?` is the same
construction with that checked each time a successor is recorded: it gives up if the row of the
source has not got exactly as far as the symbol.
-/

namespace FiniteAutomata

/-- A subset construction in progress: what is found, and the sets to be expanded. -/
structure Construction where
  arena : Arena
  queue : Worklist (DfaStateId × StateSet)

namespace Construction

variable (N : Nfa)

/-- The state that stands for a reached set, which is the sink if nothing is reached. -/
def stateFor (reached : StateSet) : DfaState :=
  if reached.isEmpty then .sink else .subset reached

/-- The construction before any expansion. -/
def init : Construction :=
  let (arena, start, _) := Arena.empty.intern N.accepting (.subset N.initialSet)
  ⟨arena, .ofList [(start, N.initialSet)]⟩

/-- Finds the successor of `source`, which stands for `S`, on `a`, and queues it if it is a set
that is new. -/
def follow (source : DfaStateId) (S : StateSet) : Construction → Symbol → Construction
  | ⟨arena, queue⟩, a =>
    let reached := N.reach S a
    let (arena, target, isNew) := arena.intern N.accepting (stateFor reached)
    { arena := arena.pushSuccessor source target
      queue := if isNew && !reached.isEmpty then queue.push (target, reached) else queue }

/-- Whether every queued set has been expanded. -/
def isIdle (c : Construction) : Bool := c.queue.isDone

/-- Expands the first queued set on all symbols, if there is one. -/
def expand (c : Construction) : Construction :=
  match c.queue.pop? with
  | some ((source, S), queue) => N.alphabet.ids.foldl (follow N source S) ⟨c.arena, queue⟩
  | none => c

/-- The construction after all expansions. -/
def run : Construction := exhaust isIdle (expand N) (Nat.pow 2 N.size) (init N)

/-- Lets the sink, if there is one, move to itself on every symbol. -/
def completeSink (A : Arena) : Arena :=
  match A.sink? with
  | some i => N.alphabet.ids.foldl (fun A _ => A.pushSuccessor i i) A
  | none => A

/-! ## With checked rows -/

/-- As `follow`, provided that the row of `source` is filled up to the symbol. -/
def follow? (source : DfaStateId) (S : StateSet) : Construction → Symbol → Option Construction
  | ⟨arena, queue⟩, a =>
    let reached := N.reach S a
    let (arena, target, isNew) := arena.intern N.accepting (stateFor reached)
    let queue := if isNew && !reached.isEmpty then queue.push (target, reached) else queue
    (arena.pushInOrder? source a target).map fun arena => ⟨arena, queue⟩

/-- As `expand`, with the rows checked. -/
def expand? (c : Construction) : Option Construction :=
  match c.queue.pop? with
  | some ((source, S), queue) => N.alphabet.ids.foldlM (follow? N source S) ⟨c.arena, queue⟩
  | none => some c

/-- As `run`, with the rows checked. -/
def run? : Option Construction := exhaust? isIdle (expand? N) (Nat.pow 2 N.size) (init N)

/-- As `completeSink`, with the row of the sink checked. -/
def completeSink? (A : Arena) : Option Arena :=
  match A.sink? with
  | some i => N.alphabet.ids.foldlM (fun A a => A.pushInOrder? i a i) A
  | none => some A

end Construction

/-- The deterministic automaton that accepts the same words. -/
def Nfa.determinize (N : Nfa) : Dfa :=
  (Construction.completeSink N (Construction.run N).arena).toDfa N.alphabet N.states

/-- The deterministic automaton, if all of its rows are filled in alphabet order. -/
def Nfa.determinize? (N : Nfa) : Option Dfa := do
  let c ← Construction.run? N
  let A ← Construction.completeSink? N c.arena
  return A.toDfa N.alphabet N.states

/-- An upper bound on the number of states after determinizing `n` states, all sets and the sink,
as far as 64 bits can tell. -/
def subsetBound (n : Nat) : Nat :=
  if 64 ≤ n then UInt64.size - 1 else Nat.pow 2 n + 1

end FiniteAutomata
