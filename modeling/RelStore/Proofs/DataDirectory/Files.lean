import RelStore.DataDirectory.Basic
import RelStore.Proofs.Except
import RelStore.Proofs.FileTree.Contents

/-!
# What actions on files ensure

`Files.Ensures m t excuse post` says: run on the tree `t`, either `m` gives a result of which `post`
holds together with the tree that it leaves, or an action on a file fails, for which there is an
excuse.  No other failure is possible, and none at all if the excuse is false.  The rules follow the
structure of `m`: `Ensures.bind` for a sequence and `ensures_forM` for a loop, which keeps track of
the elements that have been dealt with.  `Files.Reads m t` says that `m` leaves the tree as it is.

The actions of a data directory change the contents of the directory as one would expect, and leave
no temporary files (`ensures_replace`, `ensures_removeIfPresent`).  Only names that cannot be
reached are an excuse.
-/

namespace RelStore

variable {α β : Type}

namespace Files

/-- The action gives a result with the property, unless with an excuse an action on a file fails. -/
def Ensures (m : Files α) (t : FileTree) (excuse : Prop) (post : α → FileTree → Prop) : Prop :=
  match m.run t with
  | (.ok a, t') => post a t'
  | (.error e, _) => excuse ∧ ∃ fault, e = .file fault

variable {m : Files α} {k : α → Files β} {t t' : FileTree} {excuse : Prop}
  {post : α → FileTree → Prop}

/-! ### Rules -/

theorem ensures_pure {a : α} (h : post a t) : (pure a : Files α).Ensures t excuse post := h

theorem ensures_throw (h : excuse) (fault : FileFault) :
    (throw (.file fault) : Files α).Ensures t excuse post :=
  ⟨h, fault, rfl⟩

theorem Ensures.imp {post' : α → FileTree → Prop} (h : m.Ensures t excuse post)
    (himp : ∀ a t', post a t' → post' a t') : m.Ensures t excuse post' := by
  unfold Ensures at h ⊢
  split at h
  · exact himp _ _ h
  · exact h

theorem Ensures.bind {post' : β → FileTree → Prop}
    (h : m.Ensures t excuse fun a t' => (k a).Ensures t' excuse post') :
    (m >>= k).Ensures t excuse post' := by
  unfold Ensures at h
  rw [Ensures, run_bind]
  split at h
  · next heq =>
    rw [heq]
    exact h
  · next heq =>
    rw [heq]
    exact h

/-- What each step of a loop ensures holds at its end. -/
theorem ensures_forM {f : α → Files Unit} {l : List α} (inv : List α → FileTree → Prop)
    (start : inv [] t)
    (step : ∀ done a rest t, done ++ a :: rest = l → inv done t →
      (f a).Ensures t excuse fun _ => inv (done ++ [a])) :
    (l.forM f).Ensures t excuse fun _ => inv l := by
  suffices hrest : ∀ (rest done : List α) (t : FileTree), done ++ rest = l → inv done t →
      (rest.forM f).Ensures t excuse fun _ => inv l from hrest l [] t rfl start
  intro rest
  induction rest with
  | nil =>
    intro done t hl hdone
    rw [List.append_nil] at hl
    rw [← hl]
    exact ensures_pure hdone
  | cons a rest ih =>
    intro done t hl hdone
    refine ((step done a rest t hl hdone).imp fun _ t' hnext => ?_).bind
    exact ih (done ++ [a]) t' (by rw [← hl, List.append_assoc]; rfl) hnext

/-! ### Reading -/

/-- The action leaves the tree as it is, whether it fails or not. -/
def Reads (m : Files α) (t : FileTree) : Prop :=
  (m.run t).2 = t

theorem Reads.run_eq (h : m.Reads t) : m.run t = ((m.run t).1, t) :=
  Prod.ext rfl h

theorem Reads.bind (h : m.Reads t) (hk : ∀ a, (k a).Reads t) : (m >>= k).Reads t := by
  unfold Reads
  rw [run_bind, h.run_eq]
  cases (m.run t).1 with
  | error e => rfl
  | ok a => exact hk a

theorem Reads.fst_bind (h : m.Reads t) :
    ((m >>= k).run t).1 = (m.run t).1 >>= fun a => ((k a).run t).1 := by
  rw [run_bind, h.run_eq]
  cases (m.run t).1 <;> rfl

/-- A loop over actions that read is a loop over what they give. -/
theorem run_foldlM_of_reads {f : β → α → Files β} (h : ∀ b a, (f b a).Reads t) (l : List α)
    (b : β) : (l.foldlM f b).run t = (l.foldlM (fun b a => ((f b a).run t).1) b, t) := by
  induction l generalizing b with
  | nil => rfl
  | cons a l ih =>
    rw [List.foldlM_cons, List.foldlM_cons, run_bind, (h b a).run_eq]
    cases ((f b a).run t).1 with
    | error e => rfl
    | ok b' => exact ih b'

/-! ### Single actions -/

theorem ensures_get {post : FileTree → FileTree → Prop} (h : post t t) :
    (get : Files FileTree).Ensures t excuse post := h

theorem ensures_set {post : PUnit → FileTree → Prop} (h : post ⟨⟩ t') :
    (set t' : Files PUnit).Ensures t excuse post := h

theorem ensures_makeDirectories {path : String} {post : Unit → FileTree → Prop}
    (h : ∀ t', t.makeDirectories path = (.ok (), t') → post () t')
    (hexcuse : (t.makeDirectories path).1 ≠ .ok () → excuse) :
    (makeDirectories path).Ensures t excuse post := by
  unfold makeDirectories
  refine Ensures.bind (ensures_get ?_)
  cases hmake : t.makeDirectories path with
  | mk outcome t' =>
    rw [hmake] at hexcuse
    refine Ensures.bind (ensures_set ?_)
    cases outcome with
    | error fault => exact ensures_throw (hexcuse (by simp)) _
    | ok u => exact ensures_pure (h t' hmake)

theorem ensures_change {f : FileTree → Except PathFault FileTree} {fault : FileFault}
    {post : Unit → FileTree → Prop} (h : ∀ t', f t = .ok t' → post () t')
    (hexcuse : (∀ t', f t ≠ .ok t') → excuse) : (change f fault).Ensures t excuse post := by
  refine (ensures_get ?_).bind
  cases hf : f t with
  | error e => exact ensures_throw (hexcuse (by simp [hf])) fault
  | ok t' => exact ensures_set (h t' hf)

theorem run_readText_eq (path : String) (t : FileTree) :
    (readText path).run t = ((t.readText path).mapError fun _ => .file (.read path), t) := by
  unfold readText
  rw [run_bind_of_eq (run_get t)]
  cases t.readText path <;> rfl

theorem run_readText {path text : String} (h : t.readText path = .ok text) :
    (readText path).run t = (.ok text, t) := by
  rw [run_readText_eq, h]
  rfl

section Contents

variable {path name : String} {location : Location} {reach : String → Prop}
  {contents : String → Option String}

theorem isName_temporary (h : Path.IsName name) : Path.IsName (name ++ ".tmp") :=
  Path.isName_append h.slash_not_mem ⟨by decide, by decide, by decide⟩

/-- A file is written under another name and moved, after which the other name is free again. -/
theorem ensures_replace (h : t.Holds path location reach contents) (hname : Path.IsName name)
    (hfree : contents (name ++ ".tmp") = none)
    (hexcuse : ¬ (reach name ∧ reach (name ++ ".tmp")) → excuse) (text : String) :
    (replace (Path.join path name) text).Ensures t excuse fun _ t' =>
      t'.Holds path location reach (Function.update contents name (some text)) := by
  have htemporary := isName_temporary hname
  have hpath : temporary (Path.join path name) = Path.join path (name ++ ".tmp") :=
    Path.join_append path hname ".tmp"
  have hwrite : (do
      change (·.writeText (temporary (Path.join path name)) text) (.write (Path.join path name))
      change (·.rename (temporary (Path.join path name)) (Path.join path name))
        (.replace (Path.join path name)) : Files Unit).Ensures t excuse fun _ t' =>
          t'.Holds path location reach (Function.update contents name (some text)) := by
    rw [hpath]
    refine Ensures.bind (ensures_change (fun t₁ hwrite => ?_) fun hfails => ?_)
    · have hwritten := h.writeText htemporary hwrite
      refine ensures_change (fun t₂ hrename => ?_) fun hfails => ?_
      · have htext := hwritten.rename hname (Function.update_self ..) hrename
        have hback : Function.update (Function.update contents (name ++ ".tmp") (some text))
            (name ++ ".tmp") none = contents := by
          rw [Function.update_idem, ← hfree, Function.update_eq_self]
        rwa [hback] at htext
      · refine hexcuse fun hreach => ?_
        obtain ⟨t₂, hrename⟩ := hwritten.exists_rename hreach.1 (Function.update_self ..)
        exact hfails t₂ hrename
    · refine hexcuse fun hreach => ?_
      obtain ⟨t₁, hwrite⟩ := h.exists_writeText hreach.2 text
      exact hfails t₁ hwrite
  obtain ⟨parent, hparent, hparts, rest, hrest⟩ := Path.parent?_join path hname
  have hmake := h.directory.makeDirectories_eq hparts
  unfold replace
  rw [hparent]
  dsimp only
  split
  · exact hwrite
  · refine Ensures.bind (ensures_makeDirectories (fun t' hmade => ?_) fun hfails => ?_)
    · rw [hmake] at hmade
      obtain ⟨-, rfl⟩ := Prod.mk.inj hmade
      exact hwrite
    · refine hexcuse fun hreach => hfails ?_
      have haccepts := FileTree.accepts_of_locate (h.locate_eq name (.inr hreach.1))
      rw [hrest] at haccepts
      rw [hmake, if_pos (FileTree.accepts_of_append haccepts)]

/-- A file that is removed, or that was not there, is not there. -/
theorem ensures_removeIfPresent (h : t.Holds path location reach contents) (hname : Path.IsName name)
    (hexcuse : ¬ reach name → excuse) :
    (removeIfPresent (Path.join path name)).Ensures t excuse fun _ t' =>
      t'.Holds path location reach (Function.update contents name none) := by
  have hremove := h.remove hname
  refine (ensures_get ?_).bind
  cases houtcome : t.remove (Path.join path name) with
  | ok t' =>
    rw [houtcome] at hremove
    exact ensures_set hremove
  | error fault =>
    rw [houtcome] at hremove
    cases fault with
    | notFound =>
      have hsame : Function.update contents name none = contents := by
        rw [← show contents name = none from hremove, Function.update_eq_self]
      rw [hsame]
      exact ensures_pure h
    | _ =>
      refine ensures_throw (hexcuse fun hreach => ?_) _
      cases h.eq_notFound_of_remove hreach houtcome

end Contents

end Files

end RelStore
