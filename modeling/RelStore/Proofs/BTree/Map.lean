import Mathlib.Data.Set.Card
import RelStore.Proofs.BTree.Scan

/-!
# B+trees as sorted maps

`TreeAction` lists the changes of a tree and `BTree.act` carries one out and gives its answer;
`KeyMap.act` does the same on a function from keys to values, which has no order and no nodes.
`BTree.replay_represents` says that from the start any sequence of actions gets the same answers
from both, and that afterwards the tree represents the function: lookups, size, listings and edges
of the tree are those of the function (`BTree.Represents`).

The invariant of a run is that the tree is sound and looks up every key as the function does.
Everything else that a tree says of itself follows from its list of entries, which is ordered.
-/

namespace RelStore

variable {κ υ α β σ τ : Type}

/-! ### Actions -/

/-- A change of a tree. -/
inductive TreeAction (κ υ : Type) where
  | put (key : κ) (value : υ)
  /-- Changes the value of a key in place. -/
  | modify (key : κ) (f : υ → υ)
  /-- Replaces all entries. -/
  | load (entries : List (κ × υ))
  | clear

/-- The tree after an action, with the value that the action found under its key. -/
def BTree.act [Ord κ] (t : BTree κ υ) : TreeAction κ υ → Option υ × BTree κ υ
  | .put key value => t.put key value
  | .modify key f => (t.get? key, t.modify key f)
  | .load entries => (none, .ofEntries t.shape entries)
  | .clear => (none, t.clear)

/-- The values of keys. -/
abbrev KeyMap (κ υ : Type) := κ → Option υ

namespace KeyMap

variable [DecidableEq κ]

/-- The map without keys. -/
def empty : KeyMap κ υ := fun _ => none

/-- Gives a key a value. -/
def put (m : KeyMap κ υ) (key : κ) (value : υ) : KeyMap κ υ :=
  Function.update m key (some value)

/-- The map after an action, with the value that the action found under its key. -/
def act (m : KeyMap κ υ) : TreeAction κ υ → Option υ × KeyMap κ υ
  | .put key value => (m key, m.put key value)
  | .modify key f => (m key, Function.update m key ((m key).map f))
  | .load entries => (none, entries.foldl (fun m e => m.put e.1 e.2) empty)
  | .clear => (none, empty)

end KeyMap

/-- The answers to a sequence of actions, and the state after them. -/
def replay (act : σ → α → β × σ) (s : σ) : List α → List β × σ
  | [] => ([], s)
  | a :: actions =>
    let (answer, s) := act s a
    let (answers, s) := replay act s actions
    (answer :: answers, s)

theorem replay_append (act : σ → α → β × σ) (s : σ) (l l' : List α) :
    replay act s (l ++ l') =
      ((replay act s l).1 ++ (replay act (replay act s l).2 l').1,
        (replay act (replay act s l).2 l').2) := by
  induction l generalizing s with
  | nil => rfl
  | cons a l ih => simp only [List.cons_append, replay, ih]

/-- Two machines in related states give the same answers if each action does, and stay related. -/
theorem replay_related {R : σ → τ → Prop} {act : σ → α → β × σ} {act' : τ → α → β × τ}
    (hact : ∀ s s' a, R s s' → (act s a).1 = (act' s' a).1 ∧ R (act s a).2 (act' s' a).2)
    {s : σ} {s' : τ} (h : R s s') (actions : List α) :
    (replay act s actions).1 = (replay act' s' actions).1 ∧
      R (replay act s actions).2 (replay act' s' actions).2 := by
  induction actions generalizing s s' with
  | nil => exact ⟨rfl, h⟩
  | cons a actions ih =>
    obtain ⟨hanswer, hstates⟩ := hact s s' a h
    obtain ⟨hanswers, hlast⟩ := ih hstates
    exact ⟨congrArg₂ List.cons hanswer hanswers, hlast⟩

/-- What every action keeps whose answer is good holds after a sequence of them with good
answers. -/
theorem replay_keeps_while {P : σ → Prop} {good : β → Prop} {act : σ → α → β × σ}
    {actions : List α}
    (hact : ∀ a ∈ actions, ∀ s, P s → good (act s a).1 → P (act s a).2) {s : σ} (h : P s)
    (hgood : ∀ b ∈ (replay act s actions).1, good b) : P (replay act s actions).2 := by
  induction actions generalizing s with
  | nil => exact h
  | cons a actions ih =>
    rw [List.forall_mem_cons] at hact
    obtain ⟨hfirst, hrest⟩ := List.forall_mem_cons.1 hgood
    exact ih hact.2 (hact.1 s h hfirst) hrest

/-- What every action keeps holds after a sequence of them. -/
theorem replay_keeps {P : σ → Prop} {act : σ → α → β × σ} {actions : List α}
    (hact : ∀ a ∈ actions, ∀ s, P s → P (act s a).2) {s : σ} (h : P s) :
    P (replay act s actions).2 :=
  replay_keeps_while (fun a ha s hs _ => hact a ha s hs) h fun _ _ => trivial

variable [Ord κ]

/-! ### Ascending lists of keys -/

section Keys

variable [Std.TransOrd κ]

/-- The head of an ascending list is its least member. -/
theorem head?_eq_some_iff_of_ascending {l : List κ} (h : l.Pairwise fun a b => keyLT a b) {a : κ} :
    l.head? = some a ↔ a ∈ l ∧ ∀ b ∈ l, keyLE a b := by
  cases l with
  | nil => simp
  | cons c l =>
    obtain ⟨hc, -⟩ := List.pairwise_cons.1 h
    rw [List.head?_cons, Option.some.injEq]
    constructor
    · rintro rfl
      refine ⟨List.mem_cons_self, List.forall_mem_cons.2 ⟨Std.ReflOrd.isLE_rfl, fun b hb => ?_⟩⟩
      exact keyLE_of_keyLT (hc b hb)
    · rintro ⟨ha, hle⟩
      rcases List.mem_cons.1 ha with rfl | ha
      · rfl
      · exact absurd (hc a ha) (keyLE_iff_not_keyLT.1 (hle c List.mem_cons_self))

/-- The end of an ascending list is its greatest member. -/
theorem getLast?_eq_some_iff_of_ascending {l : List κ} (h : l.Pairwise fun a b => keyLT a b)
    {a : κ} : l.getLast? = some a ↔ a ∈ l ∧ ∀ b ∈ l, keyLE b a := by
  rcases List.eq_nil_or_concat' l with rfl | ⟨l, c, rfl⟩
  · simp
  · obtain ⟨-, -, hc⟩ := List.pairwise_append.1 h
    rw [List.getLast?_concat, Option.some.injEq]
    constructor
    · rintro rfl
      refine ⟨by simp, List.forall_mem_append.2 ⟨fun b hb => ?_, fun b hb => ?_⟩⟩
      · exact keyLE_of_keyLT (hc b hb c List.mem_cons_self)
      · rw [List.mem_singleton.1 hb]
        exact Std.ReflOrd.isLE_rfl
    · rintro ⟨ha, hle⟩
      rcases List.mem_append.1 ha with ha | ha
      · exact absurd (hc a ha c List.mem_cons_self)
          (keyLE_iff_not_keyLT.1 (hle c (by simp)))
      · exact (List.mem_singleton.1 ha).symm

end Keys

/-! ### Lookups in lists of entries -/

namespace Leaf

variable [Std.TransOrd κ] [Std.LawfulEqOrd κ] {l : Leaf κ υ}

omit [Std.TransOrd κ] in
theorem get?_cons (k key : κ) (value : υ) (l : Leaf κ υ) [DecidableEq κ] :
    get? k ((key, value) :: l) = if key = k then some value else get? k l := by
  unfold get?
  by_cases h : key = k
  · rw [if_pos h, List.find?_cons_of_pos (by simpa using h)]
    rfl
  · rw [if_neg h, List.find?_cons_of_neg (by simpa using h)]

theorem get?_eq_some_iff (h : Ascending l) {key : κ} {value : υ} :
    get? key l = some value ↔ (key, value) ∈ l := by
  classical
  induction l with
  | nil => simp [get?]
  | cons e l ih =>
    obtain ⟨hhead, htail⟩ := List.pairwise_cons.1 h
    rw [get?_cons, List.mem_cons, ← ih htail]
    split
    · next heq =>
      have hnone : get? key l ≠ some value := fun hsome =>
        keyLT_irrefl (heq ▸ hhead _ ((ih htail).1 hsome))
      subst heq
      simp only [hnone, or_false, Option.some.injEq]
      exact ⟨fun hv => by rw [← hv], fun he => by rw [← he]⟩
    · next hne =>
      have hne' : (key, value) ≠ e := fun he => hne (by rw [← he])
      simp [hne']

variable [DecidableEq κ]

omit [Std.TransOrd κ] in
theorem get?_insert (k key : κ) (value : υ) (l : Leaf κ υ) :
    get? k (insert key value l) = if key = k then some value else get? k l := by
  induction l with
  | nil => exact get?_cons k key value []
  | cons e l ih =>
    unfold insert
    split
    · exact get?_cons k key value _
    · next heq =>
      have hkey : key = e.1 := Std.LawfulEqOrd.eq_of_compare heq
      rw [get?_cons, get?_cons, hkey]
      split <;> rfl
    · next hgt =>
      have hne : key ≠ e.1 := by
        rintro rfl
        simp at hgt
      rw [get?_cons, get?_cons, ih]
      split
      · next heq => rw [if_neg (heq ▸ hne)]
      · rfl

omit [Std.TransOrd κ] in
theorem get?_insert_eq_put {m : KeyMap κ υ} (h : ∀ k, get? k l = m k) (key : κ) (value : υ) (k : κ) :
    get? k (insert key value l) = m.put key value k := by
  rw [get?_insert, h, KeyMap.put, Function.update_apply]
  exact if_congr eq_comm rfl rfl

omit [Std.TransOrd κ] in
/-- Insertions one after the other do to a list what they do to a map. -/
theorem get?_foldl_insert (entries : List (κ × υ)) {m : KeyMap κ υ} (h : ∀ k, get? k l = m k)
    (k : κ) : get? k (entries.foldl (fun l e => insert e.1 e.2 l) l) =
      entries.foldl (fun m e => m.put e.1 e.2) m k := by
  induction entries generalizing l m with
  | nil => exact h k
  | cons e entries ih => exact ih (get?_insert_eq_put h e.1 e.2)

omit [Std.TransOrd κ] in
theorem get?_modify (k key : κ) (f : υ → υ) (l : Leaf κ υ) :
    get? k (modify key f l) = if key = k then (get? k l).map f else get? k l := by
  induction l with
  | nil => simp [get?]
  | cons e l ih =>
    have hcons : modify key f (e :: l) =
        (e.1, if e.1 = key then f e.2 else e.2) :: modify key f l := by
      unfold modify
      rw [List.map_cons]
      by_cases h : e.1 = key <;> simp [h]
    rw [hcons, get?_cons, get?_cons, ih]
    by_cases hk : e.1 = k
    · by_cases hkey : key = k
      · simp [hk, hkey]
      · simp [hk, hkey, Ne.symm hkey]
    · simp [hk]

end Leaf

/-! ### Runs -/

namespace BTree

variable [Std.TransOrd κ] [Std.LawfulEqOrd κ]

/-- A sound tree that looks up every key as a map does. -/
def Agrees (t : BTree κ υ) (m : KeyMap κ υ) : Prop :=
  t.Sound ∧ ∀ key, t.get? key = m key

omit [Std.LawfulEqOrd κ] in
theorem agrees_empty (shape : Shape) : (empty shape : BTree κ υ).Agrees KeyMap.empty := by
  have hsound : (empty shape : BTree κ υ).Sound := sound_empty shape
  refine ⟨hsound, fun key => ?_⟩
  rw [hsound.get?_eq, toList_empty]
  rfl

variable [DecidableEq κ] {t : BTree κ υ} {m : KeyMap κ υ}

theorem Agrees.insert (h : t.Agrees m) (key : κ) (value : υ) :
    (t.insert key value).Agrees (m.put key value) := by
  refine ⟨h.1.insert key value, fun k => ?_⟩
  rw [(h.1.insert key value).get?_eq, h.1.toList_insert]
  exact Leaf.get?_insert_eq_put (fun k => (h.1.get?_eq k).symm.trans (h.2 k)) key value k

theorem Agrees.modify (h : t.Agrees m) (key : κ) (f : υ → υ) :
    (t.modify key f).Agrees (Function.update m key ((m key).map f)) := by
  refine ⟨h.1.modify key f, fun k => ?_⟩
  rw [(h.1.modify key f).get?_eq, h.1.toList_modify, Leaf.get?_modify, ← h.1.get?_eq, h.2 k,
    Function.update_apply]
  by_cases hk : key = k
  · rw [if_pos hk, if_pos hk.symm, hk]
  · rw [if_neg hk, if_neg (Ne.symm hk)]

/-- Loading gives what the insertion of one entry after the other gives. -/
theorem agrees_ofEntries (shape : Shape) (entries : List (κ × υ)) :
    (ofEntries shape entries).Agrees
      (entries.foldl (fun m e => m.put e.1 e.2) KeyMap.empty) := by
  have hsound := (sound_ofEntries shape entries).1
  refine ⟨hsound, fun key => ?_⟩
  rw [hsound.get?_eq, toList_ofEntries]
  exact Leaf.get?_foldl_insert entries (fun _ => rfl) key

/-- One action finds the same in tree and map, and does the same to both. -/
theorem Agrees.act (h : t.Agrees m) (a : TreeAction κ υ) :
    (t.act a).1 = (m.act a).1 ∧ (t.act a).2.Agrees (m.act a).2 := by
  cases a with
  | put key value => exact ⟨(h.1.fst_put key value).trans (h.2 key), h.insert key value⟩
  | modify key f => exact ⟨h.2 key, h.modify key f⟩
  | load entries => exact ⟨rfl, agrees_ofEntries t.shape entries⟩
  | clear => exact ⟨rfl, agrees_empty t.shape⟩

/-! ### What a tree says of its map -/

/-- Everything that a tree tells is so of the map. -/
structure Represents (t : BTree κ υ) (m : KeyMap κ υ) : Prop where
  get?_eq : ∀ key, t.get? key = m key
  contains_eq : ∀ key, t.contains key = (m key).isSome
  /-- The size is the number of keys. -/
  size_eq : (t.size : ℕ∞) = {key | (m key).isSome}.encard
  length_toList : t.toList.length = t.size
  isEmpty_iff : t.isEmpty ↔ t.size = 0
  /-- The keys are listed in strictly ascending order, so each once. -/
  keys_ascending : t.keys.Pairwise fun a b => keyLT a b
  mem_keys_iff : ∀ key, key ∈ t.keys ↔ (m key).isSome
  /-- The entries are listed in the order of the keys. -/
  keys_eq : t.toList.map (·.1) = t.keys
  mem_toList_iff : ∀ key value, (key, value) ∈ t.toList ↔ m key = some value
  /-- A scan of the whole tree lists the entries, and its steps the first of them. -/
  scan_eq : (t.scan .unbounded .unbounded).toList = t.toList
  take_scan_eq : ∀ n, ((t.scan .unbounded .unbounded).take n).1 = t.toList.take n
  /-- The first key is the least. -/
  firstKey?_eq_some_iff : ∀ key, t.firstKey? = some key ↔
    (m key).isSome ∧ ∀ k, (m k).isSome → keyLE key k
  /-- The last key is the greatest. -/
  lastKey?_eq_some_iff : ∀ key, t.lastKey? = some key ↔
    (m key).isSome ∧ ∀ k, (m k).isSome → keyLE k key

omit [DecidableEq κ] in
theorem Agrees.mem_toList_iff (h : t.Agrees m) (key : κ) (value : υ) :
    (key, value) ∈ t.toList ↔ m key = some value := by
  rw [← h.2 key, h.1.get?_eq, Leaf.get?_eq_some_iff h.1.ascending]

omit [DecidableEq κ] in
theorem Agrees.mem_keys_iff (h : t.Agrees m) (key : κ) : key ∈ t.keys ↔ (m key).isSome := by
  rw [keys, List.mem_map, Option.isSome_iff_exists]
  constructor
  · rintro ⟨e, he, rfl⟩
    exact ⟨e.2, (h.mem_toList_iff e.1 e.2).1 he⟩
  · rintro ⟨value, hvalue⟩
    exact ⟨(key, value), (h.mem_toList_iff key value).2 hvalue, rfl⟩

omit [Std.LawfulEqOrd κ] [DecidableEq κ] in
theorem Sound.keys_ascending (h : t.Sound) : t.keys.Pairwise fun a b => keyLT a b :=
  Leaf.Ascending.iff_map_fst.1 h.ascending

omit [Std.LawfulEqOrd κ] [DecidableEq κ] in
theorem Sound.nodup_keys (h : t.Sound) : t.keys.Nodup :=
  h.keys_ascending.imp fun {a b} (hlt : keyLT a b) (heq : a = b) =>
    keyLT_irrefl (a := b) (heq ▸ hlt)

omit [DecidableEq κ] in
/-- Trees that look up every key alike have the same entries, whatever their nodes. -/
theorem Agrees.toList_eq (h : t.Agrees m) {t' : BTree κ υ} (h' : t'.Agrees m) :
    t.toList = t'.toList := by
  have hperm : t.toList.Perm t'.toList := by
    rw [List.perm_ext_iff_of_nodup h.1.nodup_keys.of_map h'.1.nodup_keys.of_map]
    exact fun e => (h.mem_toList_iff e.1 e.2).trans (h'.mem_toList_iff e.1 e.2).symm
  refine hperm.eq_of_pairwise (fun a b _ _ hab hba => ?_) h.1.ascending h'.1.ascending
  exact absurd (keyLT_trans hab hba) keyLT_irrefl

omit [DecidableEq κ] in
theorem Agrees.size_eq (h : t.Agrees m) : (t.size : ℕ∞) = {key | (m key).isSome}.encard := by
  classical
  have hset : {key | (m key).isSome} = (t.keys.toFinset : Set κ) := by
    ext key
    simp [h.mem_keys_iff]
  have hcard : t.keys.toFinset.card = t.size := by
    rw [List.toFinset_card_of_nodup h.1.nodup_keys, keys, List.length_map, h.1.size_eq_length]
  rw [hset, Set.encard_coe_eq_coe_finsetCard, hcard]

omit [DecidableEq κ] in
theorem Agrees.represents (h : t.Agrees m) : t.Represents m where
  get?_eq := h.2
  contains_eq key := congrArg Option.isSome (h.2 key)
  size_eq := h.size_eq
  length_toList := h.1.size_eq_length.symm
  isEmpty_iff := beq_iff_eq
  keys_ascending := h.1.keys_ascending
  mem_keys_iff := h.mem_keys_iff
  keys_eq := rfl
  mem_toList_iff := h.mem_toList_iff
  scan_eq := rfl
  take_scan_eq n := h.1.take_scan_eq _ _ n
  firstKey?_eq_some_iff key := by
    rw [h.1.firstKey?_eq, head?_eq_some_iff_of_ascending h.1.keys_ascending, h.mem_keys_iff]
    simp only [h.mem_keys_iff]
  lastKey?_eq_some_iff key := by
    rw [h.1.lastKey?_eq, getLast?_eq_some_iff_of_ascending h.1.keys_ascending, h.mem_keys_iff]
    simp only [h.mem_keys_iff]

/-- From the start, actions on a tree get the answers that they get from a map, and the tree goes on
to represent that map. -/
theorem replay_represents (order capacity : Nat) (actions : List (TreeAction κ υ)) :
    let tree := replay act (empty (.ofSizes order capacity) : BTree κ υ) actions
    let map := replay KeyMap.act KeyMap.empty actions
    tree.1 = map.1 ∧ tree.2.Represents map.2 := by
  intro tree map
  have h : tree.1 = map.1 ∧ tree.2.Agrees map.2 :=
    replay_related (fun _ _ a h => h.act a) (agrees_empty _) actions
  exact ⟨h.1, h.2.represents⟩

/-- Three keys in a tree whose leaves split at three entries. -/
theorem replay_represents_split :
    let actions : List (TreeAction Nat String) :=
      [.put 2 "b", .put 1 "a", .put 3 "c", .put 2 "d", .modify 3 (· ++ "!"), .modify 4 (· ++ "!")]
    let tree := replay act (empty (.ofSizes 0 0)) actions
    tree.1 = [none, none, none, some "b", some "c", none] ∧
      tree.2.toList = [(1, "a"), (2, "d"), (3, "c!")] ∧ tree.2.height = 2 ∧
      tree.2.Represents (replay KeyMap.act KeyMap.empty actions).2 :=
  ⟨by decide, by decide, by decide, (replay_represents 0 0 _).2⟩

end BTree

end RelStore
