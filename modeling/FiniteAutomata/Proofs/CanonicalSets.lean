import Mathlib
import FiniteAutomata.Dfa.Basic
import FiniteAutomata.Proofs.EpsilonReachability

/-!
# Canonical sets of states

Whatever calls made a set of states, what can be asked of it depends on its members alone
(`StateSet.canonical`). Calls (`SetCall`) go to sets in numbered registers. Run on sets in the sense
of mathematics (`SetOps.described`), they say which members the sets have.

The same holds of sets of states that are kept as bit sets (`BitSet.queries`), where equality, order
and hashing go through the iteration over the positions. All that is needed of the bit sets is that
they are sets of positions (`BitSet.Lawful`). Then the positions are those of the members throughout
(`BitSet.Lawful.simulates`), and the answers are the same (`BitSet.Lawful.queries_comap`).
-/

namespace FiniteAutomata

variable {σ τ ι : Type}

/-! ## Calls -/

/-- How sets of states are made. -/
structure SetOps (σ : Type) where
  new : σ
  singleton : StateId → σ
  insert : σ → StateId → σ
  extend : σ → List StateId → σ
  collect : List StateId → σ
  unionWith : σ → σ → σ
  union : σ → σ → σ

/-- A call on sets in numbered registers, the first of which gets the result. -/
inductive SetCall
  | new (r : Nat)
  | singleton (r : Nat) (q : StateId)
  | insert (r : Nat) (q : StateId)
  | extend (r : Nat) (qs : List StateId)
  | collect (r : Nat) (qs : List StateId)
  | unionWith (r k : Nat)
  | union (r k l : Nat)
  | clone (r k : Nat)

namespace SetOps

/-- What a call puts into its register. -/
def result (O : SetOps σ) (sets : Nat → σ) : SetCall → Nat × σ
  | .new r => (r, O.new)
  | .singleton r q => (r, O.singleton q)
  | .insert r q => (r, O.insert (sets r) q)
  | .extend r qs => (r, O.extend (sets r) qs)
  | .collect r qs => (r, O.collect qs)
  | .unionWith r k => (r, O.unionWith (sets r) (sets k))
  | .union r k l => (r, O.union (sets k) (sets l))
  | .clone r k => (r, sets k)

/-- The registers after a call. -/
def apply (O : SetOps σ) (sets : Nat → σ) (call : SetCall) : Nat → σ :=
  Function.update sets (O.result sets call).1 (O.result sets call).2

/-- The registers after some calls, before which all of them were new. -/
def run (O : SetOps σ) (calls : List SetCall) : Nat → σ := calls.foldl O.apply fun _ => O.new

/-- Related sets are made from related sets. -/
structure Simulates (R : σ → τ → Prop) (O : SetOps σ) (P : SetOps τ) : Prop where
  new : R O.new P.new
  singleton : ∀ q, R (O.singleton q) (P.singleton q)
  insert : ∀ s t q, R s t → R (O.insert s q) (P.insert t q)
  extend : ∀ s t qs, R s t → R (O.extend s qs) (P.extend t qs)
  collect : ∀ qs, R (O.collect qs) (P.collect qs)
  unionWith : ∀ s t s' t', R s t → R s' t' → R (O.unionWith s s') (P.unionWith t t')
  union : ∀ s t s' t', R s t → R s' t' → R (O.union s s') (P.union t t')

namespace Simulates

variable {R : σ → τ → Prop} {O : SetOps σ} {P : SetOps τ} {sets : Nat → σ} {sets' : Nat → τ}

theorem result (h : Simulates R O P) (hsets : ∀ r, R (sets r) (sets' r)) (call : SetCall) :
    (O.result sets call).1 = (P.result sets' call).1 ∧
      R (O.result sets call).2 (P.result sets' call).2 := by
  cases call with
  | new r => exact ⟨rfl, h.new⟩
  | singleton r q => exact ⟨rfl, h.singleton q⟩
  | insert r q => exact ⟨rfl, h.insert _ _ q (hsets r)⟩
  | extend r qs => exact ⟨rfl, h.extend _ _ qs (hsets r)⟩
  | collect r qs => exact ⟨rfl, h.collect qs⟩
  | unionWith r k => exact ⟨rfl, h.unionWith _ _ _ _ (hsets r) (hsets k)⟩
  | union r k l => exact ⟨rfl, h.union _ _ _ _ (hsets k) (hsets l)⟩
  | clone r k => exact ⟨rfl, hsets k⟩

theorem apply (h : Simulates R O P) (hsets : ∀ r, R (sets r) (sets' r)) (call : SetCall) (r : Nat) :
    R (O.apply sets call r) (P.apply sets' call r) := by
  obtain ⟨hregister, hresult⟩ := h.result hsets call
  rw [SetOps.apply, SetOps.apply, ← hregister]
  by_cases hr : r = (O.result sets call).1
  · rw [hr, Function.update_self, Function.update_self]
    exact hresult
  · rw [Function.update_of_ne hr, Function.update_of_ne hr]
    exact hsets r

/-- **Calls keep the registers related.** -/
theorem run (h : Simulates R O P) (calls : List SetCall) (r : Nat) :
    R (O.run calls r) (P.run calls r) := by
  -- for any registers, since each call leaves others to the calls after it
  suffices hall : ∀ sets sets', (∀ r, R (sets r) (sets' r)) → ∀ r,
      R (calls.foldl O.apply sets r) (calls.foldl P.apply sets' r) from
    hall _ _ (fun _ => h.new) r
  induction calls with
  | nil => exact fun _ _ hsets => hsets
  | cons call calls ih => exact fun _ _ hsets => ih _ _ (h.apply hsets call)

end Simulates

/-- What calls do to sets in the sense of mathematics. -/
def described : SetOps (Set StateId) where
  new := ∅
  singleton q := {q}
  insert X q := Insert.insert q X
  extend X qs := X ∪ {q | q ∈ qs}
  collect qs := {q | q ∈ qs}
  unionWith X Y := X ∪ Y
  union X Y := X ∪ Y

end SetOps

/-! ## Answers -/

/-- What can be asked of sets of states. -/
@[ext] structure SetQueries (σ : Type) where
  iter : σ → List StateId
  contains : σ → StateId → Bool
  size : σ → Nat
  isEmpty : σ → Bool
  /-- What inserting the state answers. -/
  isNew : σ → StateId → Bool
  isSubset : σ → σ → Bool
  isDisjoint : σ → σ → Bool
  equal : σ → σ → Bool
  order : σ → σ → Ordering
  /-- What a hasher is fed. -/
  hashSequence : σ → List Nat

/-- Asks the sets that are found at some places. -/
def SetQueries.comap (Q : SetQueries σ) (place : ι → σ) : SetQueries ι where
  iter i := Q.iter (place i)
  contains i := Q.contains (place i)
  size i := Q.size (place i)
  isEmpty i := Q.isEmpty (place i)
  isNew i := Q.isNew (place i)
  isSubset i j := Q.isSubset (place i) (place j)
  isDisjoint i j := Q.isDisjoint (place i) (place j)
  equal i j := Q.equal (place i) (place j)
  order i j := Q.order (place i) (place j)
  hashSequence i := Q.hashSequence (place i)

/-- A total order, in which the equal ones and no others compare equal. -/
structure IsTotalOrder (cmp : σ → σ → Ordering) (eq : σ → σ → Prop) : Prop where
  eq_iff : ∀ s t, cmp s t = .eq ↔ eq s t
  swap : ∀ s t, cmp s t = (cmp t s).swap
  trans : ∀ s t u, (cmp s t).isLE → (cmp t u).isLE → (cmp s u).isLE

/-- The answers are those for the sets with the given members, and they agree with each other. -/
structure SetQueries.Canonical (Q : SetQueries σ) (members : σ → Set StateId) : Prop where
  mem_iter : ∀ s q, q ∈ Q.iter s ↔ q ∈ members s
  ascending : ∀ s, (Q.iter s).Pairwise (· < ·)
  contains : ∀ s q, Q.contains s q = true ↔ q ∈ members s
  size : ∀ s, Q.size s = (members s).ncard
  isEmpty : ∀ s, Q.isEmpty s = true ↔ members s = ∅
  isNew : ∀ s q, Q.isNew s q = true ↔ q ∉ members s
  isSubset : ∀ s t, Q.isSubset s t = true ↔ members s ⊆ members t
  isDisjoint : ∀ s t, Q.isDisjoint s t = true ↔ Disjoint (members s) (members t)
  equal : ∀ s t, Q.equal s t = true ↔ members s = members t
  order : IsTotalOrder Q.order fun s t => Q.equal s t = true
  order_lt : ∀ s t, Q.order s t = .lt ↔ Q.iter s < Q.iter t
  hashSequence : ∀ s t, Q.equal s t = true → Q.hashSequence s = Q.hashSequence t

theorem IsTotalOrder.comap {cmp : σ → σ → Ordering} {eq : σ → σ → Prop} (h : IsTotalOrder cmp eq)
    (place : ι → σ) : IsTotalOrder (fun i j => cmp (place i) (place j))
      fun i j => eq (place i) (place j) where
  eq_iff i j := h.eq_iff (place i) (place j)
  swap i j := h.swap (place i) (place j)
  trans i j k := h.trans (place i) (place j) (place k)

theorem isTotalOrder_compare [Ord σ] [Std.TransOrd σ] [Std.LawfulEqOrd σ] :
    IsTotalOrder (compare : σ → σ → Ordering) Eq where
  eq_iff _ _ := Std.LawfulEqCmp.compare_eq_iff_eq
  swap _ _ := Std.OrientedCmp.eq_swap
  trans _ _ _ := Std.TransCmp.isLE_trans

theorem SetQueries.Canonical.comap {Q : SetQueries σ} {members : σ → Set StateId}
    (h : Q.Canonical members) (place : ι → σ) :
    (Q.comap place).Canonical fun i => members (place i) where
  mem_iter i := h.mem_iter (place i)
  ascending i := h.ascending (place i)
  contains i := h.contains (place i)
  size i := h.size (place i)
  isEmpty i := h.isEmpty (place i)
  isNew i := h.isNew (place i)
  isSubset i j := h.isSubset (place i) (place j)
  isDisjoint i j := h.isDisjoint (place i) (place j)
  equal i j := h.equal (place i) (place j)
  order := h.order.comap place
  order_lt i j := h.order_lt (place i) (place j)
  hashSequence i j := h.hashSequence (place i) (place j)

/-! ## Sets that list their members -/

/-- The order of lists of ids is lexicographic. -/
theorem Index.compare_list_eq_lt {s : Space} {l m : List (Index s)} :
    compare l m = .lt ↔ l < m := by
  induction l generalizing m with
  | nil => cases m <;> simp
  | cons i l ih =>
    cases m with
    | nil => simp
    | cons j m =>
      rw [List.compare_cons_cons, Ordering.then_eq_lt, ih, List.cons_lt_cons_iff,
        Index.compare_eq_lt, Std.LawfulEqCmp.compare_eq_iff_eq]

theorem Index.compare_map_toNat {s : Space} (l m : List (Index s)) :
    compare (l.map toNat) (m.map toNat) = compare l m := by
  induction l generalizing m with
  | nil => cases m <;> rfl
  | cons i l ih =>
    cases m with
    | nil => rfl
    | cons j m =>
      rw [List.map_cons, List.map_cons, List.compare_cons_cons, List.compare_cons_cons, ih,
        Index.compare_eq]

namespace StateSet

variable {S T : StateSet}

/-- How sets that list their members are made. -/
def ops : SetOps StateSet where
  new := empty
  singleton := singleton
  insert := insert
  extend := insertMany
  collect := ofList
  unionWith := union
  union := union

/-- What can be asked of sets that list their members. -/
def queries : SetQueries StateSet where
  iter := toList
  contains := contains
  size := size
  isEmpty := isEmpty
  isNew S q := (S.insertNew q).2
  isSubset := isSubset
  isDisjoint := isDisjoint
  equal S T := S == T
  order S T := compare S T
  hashSequence := hashSequence

theorem simulates_described : SetOps.Simulates (fun S X => S.toSet = X) ops SetOps.described where
  new := by ext q; simp [ops, SetOps.described]
  singleton q := by ext p; simp [ops, SetOps.described]
  insert S _ q h := by ext p; simp [ops, SetOps.described, ← h]
  extend S _ qs h := by ext p; simp [ops, SetOps.described, ← h]
  collect qs := by ext p; simp [ops, SetOps.described]
  unionWith S _ T _ h h' := by ext p; simp [ops, SetOps.described, ← h, ← h']
  union S _ T _ h h' := by ext p; simp [ops, SetOps.described, ← h, ← h']

theorem toSet_inj : S.toSet = T.toSet ↔ S = T :=
  ⟨fun h => ext fun q => by rw [← mem_toSet, h, mem_toSet], congrArg toSet⟩

theorem size_eq_ncard (S : StateSet) : S.size = S.toSet.ncard := by
  have hset : S.toSet = ↑S.toList.toFinset := by ext q; simp
  rw [hset, Set.ncard_coe_finset, List.toFinset_card_of_nodup S.nodup_toList, size]

/-- **Answers depend on the members alone.** -/
theorem canonical_queries : queries.Canonical toSet where
  mem_iter _ _ := Iff.rfl
  ascending := ascending
  contains _ _ := contains_eq_true
  size := size_eq_ncard
  isEmpty S := isEmpty_iff.trans Set.eq_empty_iff_forall_notMem.symm
  isNew S q := by simp [queries, insertNew, ← contains_eq_true]
  isSubset S T := isSubset_iff
  isDisjoint S T := isDisjoint_iff.trans Set.disjoint_left.symm
  equal S T := beq_iff_eq.trans toSet_inj.symm
  order := by
    simpa only [queries, beq_iff_eq] using isTotalOrder_compare
  order_lt S T := by
    show compare S.toList T.toList = .lt ↔ S.toList < T.toList
    exact Index.compare_list_eq_lt
  hashSequence S T h := congrArg hashSequence (beq_iff_eq.1 h)

end StateSet

/-! ## Bit sets -/

/-- What is used of bit sets, which are sets of positions. -/
structure BitSet (β : Type) where
  empty : β
  /-- Adds a position and tells whether it is new. -/
  insert : β → Nat → β × Bool
  contains : β → Nat → Bool
  len : β → Nat
  isEmpty : β → Bool
  iter : β → List Nat
  unionWith : β → β → β
  isDisjoint : β → β → Bool
  isSubset : β → β → Bool

namespace BitSet

variable {β : Type} {B : BitSet β} {b c : β} {S T : StateSet} {n : Nat}

/-- Iteration is ascending, and all else is as the positions that it goes through say. -/
structure Lawful (B : BitSet β) : Prop where
  ascending : ∀ b, (B.iter b).Pairwise (· < ·)
  not_mem_empty : ∀ n, n ∉ B.iter B.empty
  mem_insert : ∀ b m n, n ∈ B.iter (B.insert b m).1 ↔ n = m ∨ n ∈ B.iter b
  isNew_iff : ∀ b n, (B.insert b n).2 = true ↔ n ∉ B.iter b
  contains_iff : ∀ b n, B.contains b n = true ↔ n ∈ B.iter b
  len_eq : ∀ b, B.len b = (B.iter b).length
  isEmpty_iff : ∀ b, B.isEmpty b = true ↔ B.iter b = []
  mem_unionWith : ∀ b c n, n ∈ B.iter (B.unionWith b c) ↔ n ∈ B.iter b ∨ n ∈ B.iter c
  isDisjoint_iff : ∀ b c, B.isDisjoint b c = true ↔ ∀ n ∈ B.iter b, n ∉ B.iter c
  isSubset_iff : ∀ b c, B.isSubset b c = true ↔ ∀ n ∈ B.iter b, n ∈ B.iter c

/-- Adds the positions of states one after the other. -/
def insertAll (B : BitSet β) (b : β) (qs : List StateId) : β :=
  qs.foldl (fun b q => (B.insert b q.toNat).1) b

/-- Sets of states made as bit sets of their positions. -/
def ops (B : BitSet β) : SetOps β where
  new := B.empty
  singleton q := (B.insert B.empty q.toNat).1
  insert b q := (B.insert b q.toNat).1
  extend := B.insertAll
  collect := B.insertAll B.empty
  unionWith := B.unionWith
  union := B.unionWith

/-- What can be asked of bit sets as sets of states. -/
def queries (B : BitSet β) : SetQueries β where
  iter b := (B.iter b).map Index.ofNat
  contains b q := B.contains b q.toNat
  size := B.len
  isEmpty := B.isEmpty
  isNew b q := (B.insert b q.toNat).2
  isSubset := B.isSubset
  isDisjoint := B.isDisjoint
  equal b c := B.iter b == B.iter c
  order b c := compare (B.iter b) (B.iter c)
  hashSequence b := B.len b :: B.iter b

/-- The positions are those of the members. -/
def Keeps (B : BitSet β) (b : β) (S : StateSet) : Prop :=
  ∀ n, n ∈ B.iter b ↔ ∃ q ∈ S, q.toNat = n

theorem Keeps.mem_iff (hb : B.Keeps b S) {q : StateId} : q.toNat ∈ B.iter b ↔ q ∈ S := by
  simp [hb q.toNat]

namespace Lawful

variable (h : B.Lawful)
include h

theorem keeps_empty : B.Keeps B.empty .empty := fun n => by simp [h.not_mem_empty]

theorem keeps_insert (hb : B.Keeps b S) (q : StateId) :
    B.Keeps (B.insert b q.toNat).1 (S.insert q) := fun n => by
  rw [h.mem_insert, hb n]
  simp [eq_comm]

theorem keeps_insertAll (hb : B.Keeps b S) (qs : List StateId) :
    B.Keeps (B.insertAll b qs) (S.insertMany qs) := by
  induction qs generalizing b S with
  | nil => exact hb
  | cons q qs ih => exact ih (h.keeps_insert hb q)

theorem keeps_unionWith (hb : B.Keeps b S) (hc : B.Keeps c T) :
    B.Keeps (B.unionWith b c) (S.union T) := fun n => by
  rw [h.mem_unionWith, hb n, hc n]
  simp [or_and_right, exists_or]

/-- **Bit sets are made as sets of states are.** -/
theorem simulates : SetOps.Simulates B.Keeps B.ops StateSet.ops where
  new := h.keeps_empty
  singleton := h.keeps_insert h.keeps_empty
  insert _ _ q hb := h.keeps_insert hb q
  extend _ _ qs hb := h.keeps_insertAll hb qs
  collect qs := by
    have hlist : StateSet.ofList qs = StateSet.empty.insertMany qs := by ext q; simp
    show B.Keeps (B.insertAll B.empty qs) (StateSet.ofList qs)
    rw [hlist]
    exact h.keeps_insertAll h.keeps_empty qs
  unionWith _ _ _ _ := h.keeps_unionWith
  union _ _ _ _ := h.keeps_unionWith

section Answers

variable (hb : B.Keeps b S) (hc : B.Keeps c T)
include hb

/-- Iteration goes through the positions of the members in their order. -/
theorem iter_eq : B.iter b = S.toList.map Index.toNat := by
  have hascending : (S.toList.map Index.toNat).Pairwise (· < ·) :=
    List.pairwise_map.2 S.ascending
  refine (h.ascending b).eq_of_mem_iff hascending fun n => ?_
  rw [hb n, List.mem_map]
  rfl

theorem map_iter_eq : (B.iter b).map Index.ofNat = S.toList := by
  rw [h.iter_eq hb, List.map_map]
  exact (List.map_congr_left fun q _ => Index.ofNat_toNat q).trans (List.map_id _)

theorem contains_eq (q : StateId) : B.contains b q.toNat = S.contains q := by
  rw [Bool.eq_iff_iff, h.contains_iff, hb.mem_iff, StateSet.contains_eq_true]

theorem len_eq_size : B.len b = S.size := by
  rw [h.len_eq, h.iter_eq hb, List.length_map, StateSet.size]

theorem isEmpty_eq : B.isEmpty b = S.isEmpty := by
  rw [Bool.eq_iff_iff, h.isEmpty_iff, h.iter_eq hb, List.map_eq_nil_iff, StateSet.isEmpty,
    List.isEmpty_iff]

theorem isNew_eq (q : StateId) : (B.insert b q.toNat).2 = (S.insertNew q).2 := by
  rw [Bool.eq_iff_iff, h.isNew_iff, hb.mem_iff]
  simp [StateSet.insertNew, ← StateSet.contains_eq_true]

theorem hashSequence_eq : B.len b :: B.iter b = S.hashSequence := by
  rw [h.len_eq_size hb, h.iter_eq hb, StateSet.hashSequence]

include hc

theorem isSubset_eq : B.isSubset b c = S.isSubset T := by
  rw [Bool.eq_iff_iff, h.isSubset_iff, StateSet.isSubset_iff, h.iter_eq hb, List.forall_mem_map]
  exact forall₂_congr fun q _ => hc.mem_iff

theorem isDisjoint_eq : B.isDisjoint b c = S.isDisjoint T := by
  rw [Bool.eq_iff_iff, h.isDisjoint_iff, StateSet.isDisjoint_iff, h.iter_eq hb, List.forall_mem_map]
  exact forall₂_congr fun q _ => not_congr hc.mem_iff

theorem equal_eq : (B.iter b == B.iter c) = (S == T) := by
  rw [Bool.eq_iff_iff, beq_iff_eq, beq_iff_eq, h.iter_eq hb, h.iter_eq hc]
  constructor
  · intro hmap
    exact StateSet.toList_inj (List.map_injective_iff.2 (fun _ _ => Index.ext_toNat) hmap)
  · rintro rfl
    rfl

theorem compare_iter_eq : compare (B.iter b) (B.iter c) = compare S T := by
  rw [h.iter_eq hb, h.iter_eq hc, Index.compare_map_toNat, StateSet.compare_eq]

end Answers

/-- **Bit sets answer as sets of states do.** -/
theorem queries_comap {place : ι → β} {sets : ι → StateSet}
    (hkeeps : ∀ i, B.Keeps (place i) (sets i)) :
    B.queries.comap place = StateSet.queries.comap sets := by
  refine SetQueries.ext (funext fun i => ?iter) (funext₂ fun i q => ?contains)
    (funext fun i => ?size) (funext fun i => ?isEmpty) (funext₂ fun i q => ?isNew)
    (funext₂ fun i j => ?isSubset) (funext₂ fun i j => ?isDisjoint) (funext₂ fun i j => ?equal)
    (funext₂ fun i j => ?order) (funext fun i => ?hashSequence)
  case iter => exact h.map_iter_eq (hkeeps i)
  case contains => exact h.contains_eq (hkeeps i) q
  case size => exact h.len_eq_size (hkeeps i)
  case isEmpty => exact h.isEmpty_eq (hkeeps i)
  case isNew => exact h.isNew_eq (hkeeps i) q
  case isSubset => exact h.isSubset_eq (hkeeps i) (hkeeps j)
  case isDisjoint => exact h.isDisjoint_eq (hkeeps i) (hkeeps j)
  case equal => exact h.equal_eq (hkeeps i) (hkeeps j)
  case order => exact h.compare_iter_eq (hkeeps i) (hkeeps j)
  case hashSequence => exact h.hashSequence_eq (hkeeps i)

end Lawful

end BitSet

/-! ## All calls -/

/-- **Sets of states are canonical under any history**, and so are those kept as bit sets. The
states of deterministic automata are in a total order too, that of the sets and then the sink. -/
theorem StateSet.canonical :
    (∀ calls, (queries.comap (ops.run calls)).Canonical (SetOps.described.run calls)) ∧
    (∀ (β : Type) (B : BitSet β), B.Lawful → ∀ calls,
      (B.queries.comap (B.ops.run calls)).Canonical (SetOps.described.run calls)) ∧
    IsTotalOrder (compare : DfaState → DfaState → Ordering) Eq ∧
    (∀ S T, compare (DfaState.subset S) (DfaState.subset T) = compare S T) ∧
    ∀ S, compare (DfaState.subset S) DfaState.sink = .lt := by
  have hcanonical : ∀ calls,
      (queries.comap (ops.run calls)).Canonical (SetOps.described.run calls) := fun calls => by
    have hrun : (fun r => (ops.run calls r).toSet) = SetOps.described.run calls :=
      funext (simulates_described.run calls)
    exact hrun ▸ canonical_queries.comap (ops.run calls)
  refine ⟨hcanonical, fun β B hB calls => ?_, isTotalOrder_compare, fun _ _ => rfl, fun _ => rfl⟩
  rw [hB.queries_comap (hB.simulates.run calls)]
  exact hcanonical calls

namespace BitSet

/-- Bit sets as numbers, with the positions of their binary ones. -/
def masks : BitSet Nat where
  empty := 0
  insert b n := (b ||| 2 ^ n, !b.testBit n)
  contains := Nat.testBit
  len b := (List.range (b.log2 + 1)).countP b.testBit
  isEmpty b := b == 0
  iter b := (List.range (b.log2 + 1)).filter b.testBit
  unionWith b c := b ||| c
  isDisjoint b c := b &&& c == 0
  isSubset b c := b ||| c == c

theorem mem_iter_masks {b n : Nat} : n ∈ masks.iter b ↔ b.testBit n = true := by
  simp only [masks, List.mem_filter, List.mem_range]
  refine and_iff_right_of_imp fun hn => ?_
  have hle : 2 ^ n ≤ b := Nat.ge_two_pow_of_testBit hn
  have hpos : b ≠ 0 := Nat.ne_of_gt (Nat.lt_of_lt_of_le (Nat.two_pow_pos n) hle)
  exact Nat.lt_succ_of_le ((Nat.le_log2 hpos).2 hle)

theorem lawful_masks : masks.Lawful where
  ascending b := List.pairwise_lt_range.filter _
  not_mem_empty n := by
    rw [mem_iter_masks]
    simp [masks]
  mem_insert b m n := by
    rw [mem_iter_masks, mem_iter_masks]
    show (b ||| 2 ^ m).testBit n = true ↔ n = m ∨ b.testBit n = true
    rw [Nat.testBit_or, Nat.testBit_two_pow, Bool.or_eq_true, decide_eq_true_iff, or_comm, eq_comm]
  isNew_iff b n := by
    rw [mem_iter_masks]
    simp [masks]
  contains_iff b n := mem_iter_masks.symm
  len_eq b := List.countP_eq_length_filter
  isEmpty_iff b := by
    simp only [List.eq_nil_iff_forall_not_mem, mem_iter_masks]
    simp [masks, Nat.eq_iff_testBit_eq (n := b)]
  mem_unionWith b c n := by
    simp only [mem_iter_masks]
    simp [masks]
  isDisjoint_iff b c := by
    simp only [mem_iter_masks]
    simp [masks, Nat.eq_iff_testBit_eq (m := 0)]
  isSubset_iff b c := by
    simp only [mem_iter_masks]
    simp [masks, Nat.eq_iff_testBit_eq (m := c)]

/-- The same set in two registers, with its members inserted in different orders, and a larger one
that comes after it. -/
def manyOrders : List SetCall :=
  [.insert 0 (.ofNat 200), .insert 0 (.ofNat 1), .collect 1 [.ofNat 1, .ofNat 200, .ofNat 1],
    .singleton 2 (.ofNat 300), .unionWith 2 0]

end BitSet

/-- Bit sets are equal and ordered as the sets that the calls describe. -/
theorem StateSet.canonical_masks : BitSet.masks.Lawful ∧
    (BitSet.masks.queries.comap (BitSet.masks.ops.run BitSet.manyOrders)).Canonical
      (SetOps.described.run BitSet.manyOrders) ∧
    SetOps.described.run BitSet.manyOrders 0 = SetOps.described.run BitSet.manyOrders 1 ∧
    BitSet.masks.queries.order (BitSet.masks.ops.run BitSet.manyOrders 0)
      (BitSet.masks.ops.run BitSet.manyOrders 2) = .lt ∧
    compare (ops.run BitSet.manyOrders 0) (ops.run BitSet.manyOrders 2) = .lt := by
  obtain ⟨-, hbits, -⟩ := canonical
  have hmasks := hbits _ _ BitSet.lawful_masks BitSet.manyOrders
  have hequal : (BitSet.masks.queries.comap (BitSet.masks.ops.run BitSet.manyOrders)).equal 0 1 =
      true := by decide +kernel
  exact ⟨BitSet.lawful_masks, hmasks, (hmasks.equal 0 1).1 hequal, by decide +kernel,
    by decide +kernel⟩

end FiniteAutomata
