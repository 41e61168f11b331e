import TreeWatch.Proofs.Tracker.Does

/-!
# Which directories are listed

A filesystem that keeps a list of the directories that have been listed and answers as before. Over it a
computation does what it does without the list, and something may be said of all directories that it
lists.

## Main definitions

- `Filesystem.recording` : the filesystem with the list
- `Tracker.recorded` : a state with a list
- `Tracker.Aside` : a computation that lists nothing goes the same way
- `Tracker.Records` : a computation goes the same way, and the directories that it lists are as told

## Main results

- `Tracker.Records.bind`, `Tracker.Records.attempt_bind` and so on : one rule for each way to build a
  computation
- `Tracker.aside_resolve`, `Tracker.aside_bindObject` and so on : one for each function that lists nothing

## Design notes

What is told of a directory is told at the end of a computation, not when the directory is listed. So the
rules ask the second part of a computation to keep what was told at the end of the first. Computations
that fail are left out, and so are trees that have outgrown their slot numbers.
-/

namespace TreeWatch

variable {σ H ε ε' α β γ : Type}

namespace Filesystem

/-- A call that leaves the list alone. -/
def aside (call : StateM σ α) : StateM (σ × List H) α := fun (files, listed) =>
  let (a, files) := call.run files
  (a, files, listed)

/-- The filesystem together with the directories that have been listed, the latest first. -/
def recording (fs : Filesystem σ H) : Filesystem (σ × List H) H where
  attributes object := aside (fs.attributes object)
  identityToken object := aside (fs.identityToken object)
  openByToken token := aside (fs.openByToken token)
  list directory := fun (files, listed) =>
    let (r, files) := (fs.list directory).run files
    (r, files, directory :: listed)
  openChild directory name := aside (fs.openChild directory name)
  openDirectory object := aside (fs.openDirectory object)
  openRoot := aside fs.openRoot
  nesting files := fs.nesting files.1

end Filesystem

namespace Tracker

/-- The state together with a list of directories. -/
def recorded (w : Tracker σ) (listed : List H) : Tracker (σ × List H) where
  files := (w.files, listed)
  leases := w.leases
  clock := w.clock
  ledger := w.ledger

/-- The first computation does what the second one does, whatever the list is, and leaves the list as
it is. -/
def Aside (x : Track (σ × List H) ε α) (y : Track σ ε α) : Prop :=
  ∀ w listed, x.run (w.recorded listed) = ((y.run w).1, (y.run w).2.recorded listed)

/-- Begun in `w`, the first computation does what the second one does and gives a result. What comes to
be on the list is as told. -/
def Records (x : Track (σ × List H) ε α) (y : Track σ ε α) (w : Tracker σ)
    (P : H → Tracker σ → Prop) : Prop :=
  (y.run w).2.tree.Fits → ∀ listed, ∃ a w' listed', y.run w = (.ok a, w') ∧
    x.run (w.recorded listed) = (.ok a, w'.recorded listed') ∧ ∀ s ∈ listed', s ∈ listed ∨ P s w'

/-! ### Computations that list nothing -/

namespace Aside

variable {x : Track (σ × List H) ε α} {y : Track σ ε α} {f : α → Track (σ × List H) ε β}
  {g : α → Track σ ε β}

protected theorem pure (a : α) : Aside (pure a : Track (σ × List H) ε α) (pure a) :=
  fun _ _ => rfl

protected theorem throw (e : ε) : Aside (throw e : Track (σ × List H) ε α) (throw e) :=
  fun _ _ => rfl

theorem bind (hx : Aside x y) (hf : ∀ a, Aside (f a) (g a)) : Aside (x >>= f) (y >>= g) := by
  intro w listed
  rw [run_bind, run_bind, hx]
  generalize y.run w = outcome
  obtain ⟨r, w'⟩ := outcome
  cases r with
  | error e => rfl
  | ok a => exact hf a w' listed

/-- What is looked at is not the list. -/
theorem look {f : Tracker (σ × List H) → α} {g : Tracker σ → α}
    (h : ∀ w listed, f (w.recorded listed) = g w) :
    Aside (look f : Track (σ × List H) ε α) (look g) := by
  intro w listed
  rw [run_look, h]
  rfl

theorem edit (f : Clock → Ledger → Ledger) :
    Aside (edit f : Track (σ × List H) ε Unit) (edit f) :=
  fun _ _ => rfl

theorem editGet (f : Clock → Ledger → α × Ledger) :
    Aside (editGet f : Track (σ × List H) ε α) (editGet f) :=
  fun _ _ => rfl

theorem editTry (f : Clock → Ledger → Except TreeError Ledger) :
    Aside (editTry f : Track (σ × List H) TreeError Unit) (editTry f) := by
  intro w listed
  have hsame : f (w.recorded listed).clock (w.recorded listed).ledger = f w.clock w.ledger := rfl
  rw [run_editTry, run_editTry, hsame]
  cases f w.clock w.ledger <;> rfl

theorem note (event : LogEvent) : Aside (note event : Track (σ × List H) ε Unit) (note event) :=
  edit _

theorem release : Aside (release : Track (σ × List H) ε Unit) release :=
  fun _ _ => rfl

theorem attempt (hx : Aside x y) :
    Aside (attempt x : Track (σ × List H) ε' (Except ε α)) (attempt y) := by
  intro w listed
  rw [run_attempt, run_attempt, hx]

theorem wrapping {wrap : ε → ε'} (hx : Aside x y) : Aside (wrapping wrap x) (wrapping wrap y) := by
  intro w listed
  rw [run_wrapping, run_wrapping, hx]
  generalize y.run w = outcome
  obtain ⟨r, w'⟩ := outcome
  cases r <;> rfl

theorem releasing (hx : Aside x y) : Aside (releasing x) (releasing y) := by
  intro w listed
  rw [run_releasing, run_releasing, hx]
  rfl

theorem ask (call : StateM σ (Except ε α)) :
    Aside (ask (Filesystem.aside call) : Track (σ × List H) ε α) (ask call) :=
  fun _ _ => rfl

theorem askOpen (opened : α → Bool) (call : StateM σ (Except ε α)) :
    Aside (askOpen opened (Filesystem.aside call) : Track (σ × List H) ε α) (askOpen opened call) := by
  intro w listed
  have hsame : ((Filesystem.aside call).run (w.recorded listed).files).1 = (call.run w.files).1 := rfl
  rw [run_askOpen, run_askOpen, hsame]
  cases (call.run w.files).1 <;> rfl

end Aside

section functions

variable (fs : Filesystem σ H)

/-- Listing a directory puts it on the list. -/
theorem run_list_recorded (directory : H) (w : Tracker σ) (listed : List H) :
    (list fs.recording directory).run (w.recorded listed) =
      (((list fs directory).run w).1, ((list fs directory).run w).2.recorded (directory :: listed)) :=
  rfl

theorem aside_belongsTo (existing : InodeId) (token : IdentityToken) :
    Aside (belongsTo fs.recording existing token) (belongsTo fs existing token) := by
  refine .bind (.look fun _ _ => rfl) fun record => ?_
  cases record with
  | none => exact .pure _
  | some r =>
    simp only
    split
    · exact .pure _
    · refine .bind (.attempt (.askOpen _ _)) fun outcome => ?_
      cases outcome with
      | ok _ => exact .bind .release fun _ => .pure _
      | error e =>
        cases e with
        | stale => exact .pure _
        | call _ => exact .throw _
        | tooLarge _ => exact .throw _

theorem aside_resolve (object : H) : Aside (resolve fs.recording object) (resolve fs object) := by
  refine .bind (.wrapping (.ask _)) fun a => .bind (.ask _) fun token => ?_
  refine .bind (.look fun _ _ => rfl) fun found => ?_
  cases found with
  | none => exact .editGet _
  | some existing =>
    refine .bind (aside_belongsTo fs existing token) fun same => ?_
    cases same with
    | true => exact .bind (.edit _) fun _ => .pure _
    | false =>
      refine .bind (.look fun _ _ => rfl) fun path => .bind (.note _) fun _ => ?_
      exact .bind (.edit _) fun _ => .bind (.editGet _) fun _ => .bind (.note _) fun _ => .pure _

theorem aside_bindName (parent : InodeId) (name : Bytes) (child : InodeId) :
    Aside (bindName parent name child : Track (σ × List H) ScanError Unit)
      (bindName parent name child) :=
  .wrapping (.editTry _)

theorem aside_unbindEntry (entry : EntryId) :
    Aside (unbindEntry entry : Track (σ × List H) ScanError Unit) (unbindEntry entry) :=
  .wrapping (.editTry _)

theorem aside_rebind (parent : InodeId) (name : Bytes) (child : InodeId) :
    Aside (rebind parent name child : Track (σ × List H) ScanError ScanSummary)
      (rebind parent name child) := by
  refine .bind (.look fun _ _ => rfl) fun bound => ?_
  cases bound with
  | none => exact .bind (aside_bindName _ _ _) fun _ => .pure _
  | some b =>
    simp only
    split
    · exact .pure _
    · refine .bind (aside_unbindEntry _) fun _ => ?_
      exact .bind (aside_bindName _ _ _) fun _ => .pure _

theorem aside_handOn (child : InodeId) (summary : ScanSummary) (recursive : Bool) (object : H) :
    Aside (handOn fs.recording child summary recursive object)
      (handOn fs child summary recursive object) := by
  refine .bind (.look fun _ _ => rfl) fun record => ?_
  simp only
  split
  · refine .bind (.attempt (.askOpen _ _)) fun opened => ?_
    cases opened with
    | ok _ => exact .pure _
    | error e =>
      simp only
      split
      · exact .pure _
      · exact .throw _
  · exact .pure _

theorem aside_bindObject (parent : InodeId) (name : Bytes) (recursive : Bool) (object : H) :
    Aside (bindObject fs.recording parent name recursive object)
      (bindObject fs parent name recursive object) := by
  refine .bind (.attempt (aside_resolve fs object)) fun resolved => ?_
  cases resolved with
  | ok child => exact .bind (aside_rebind _ _ _) fun _ => aside_handOn fs _ _ _ _
  | error e =>
    cases e with
    | stale => exact .throw _
    | tooLarge _ => exact .bind (.note _) fun _ => .pure _
    | call e =>
      simp only
      split
      · exact .bind (.note _) fun _ => .pure _
      · exact .throw _

theorem aside_unbindAll (entries : List EntryId) :
    Aside (unbindAll entries : Track (σ × List H) ScanError ScanSummary) (unbindAll entries) := by
  induction entries with
  | nil => exact .pure _
  | cons entry rest ih => exact .bind (aside_unbindEntry _) fun _ => .bind ih fun _ => .pure _

theorem aside_releaseObject (n : Notification H) :
    Aside (releaseObject n : Track (σ × List H) ε Unit) (releaseObject n) := by
  unfold releaseObject
  cases n.object with
  | none => exact .pure _
  | some _ => exact .release

end functions

/-! ### Computations that list something -/

namespace Records

variable {w : Tracker σ} {x : Track (σ × List H) ε α} {y : Track σ ε α}
  {f : α → Track (σ × List H) ε β} {g : α → Track σ ε β} {P Q : H → Tracker σ → Prop}
  {R : α → Tracker σ → Prop}

theorem of_aside (hx : Aside x y) (hy : Does y w True R) : Records x y w P := by
  intro fits listed
  obtain ⟨a, w', hrun, -⟩ := hy.run_eq fits
  exact ⟨a, w', listed, hrun, by rw [hx, hrun], fun s hs => .inl hs⟩

protected theorem pure {a : α} : Records (pure a : Track (σ × List H) ε α) (pure a) w P :=
  fun _ listed => ⟨a, w, listed, rfl, rfl, fun _ hs => .inl hs⟩

theorem does (h : Records x y w P) : Does y w True fun _ _ => True := by
  intro fits
  obtain ⟨a, w', -, hrun, -⟩ := h fits []
  rw [hrun]
  trivial

theorem mono (h : Records x y w P) (hPQ : ∀ s w', P s w' → Q s w') : Records x y w Q := by
  intro fits listed
  obtain ⟨a, w', listed', hrun, hrecorded, hlisted⟩ := h fits listed
  exact ⟨a, w', listed', hrun, hrecorded, fun s hs => (hlisted s hs).imp_right (hPQ s w')⟩

theorem bind (hx : Records x y w P) (hy : Does y w True R) (htame : ∀ a, Tame (g a))
    (hf : ∀ a w₁, R a w₁ → Records (f a) (g a) w₁ Q)
    (hkeep : ∀ a w₁, R a w₁ → Does (g a) w₁ True fun _ w₂ => ∀ s, P s w₁ → Q s w₂) :
    Records (x >>= f) (y >>= g) w Q := by
  intro fits listed
  have hmid : (y.run w).2.tree.Fits := by
    rw [run_bind] at fits
    generalize y.run w = outcome at fits ⊢
    obtain ⟨r, w₁⟩ := outcome
    cases r with
    | error e => exact fits
    | ok a => exact ((htame a).grows w₁).fits fits
  obtain ⟨a, w₁, hrun, hR⟩ := hy.run_eq hmid
  obtain ⟨_, _, listed₁, hrun₁, hrecorded, hlisted⟩ := hx hmid listed
  cases hrun.symm.trans hrun₁
  have hrest : (y >>= g).run w = (g a).run w₁ := by rw [run_bind, hrun]
  rw [hrest] at fits ⊢
  obtain ⟨b, w₂, hrun₂, hkept⟩ := (hkeep a w₁ hR).run_eq fits
  obtain ⟨_, _, listed₂, hrun₃, hrecorded₂, hlisted₂⟩ := hf a w₁ hR fits listed₁
  cases hrun₂.symm.trans hrun₃
  refine ⟨b, w₂, listed₂, hrun₂, by rw [run_bind, hrecorded]; exact hrecorded₂, fun s hs => ?_⟩
  rcases hlisted₂ s hs with hmem | hQ
  · exact (hlisted s hmem).imp_right (hkept s)
  · exact .inr hQ

/-- A second part that lists nothing. -/
theorem before (hx : Records x y w P) (hy : Does y w True R) (htame : ∀ a, Tame (g a))
    (hf : ∀ a, Aside (f a) (g a))
    (hkeep : ∀ a w₁, R a w₁ → Does (g a) w₁ True fun _ w₂ => ∀ s, P s w₁ → Q s w₂) :
    Records (x >>= f) (y >>= g) w Q :=
  hx.bind hy htame (fun a w₁ hR => .of_aside (hf a) (hkeep a w₁ hR)) hkeep

/-- A first part that lists nothing. -/
theorem bind_aside (hx : Aside x y) (hy : Does y w True R) (htame : ∀ a, Tame (g a))
    (hf : ∀ a w₁, R a w₁ → Records (f a) (g a) w₁ Q) : Records (x >>= f) (y >>= g) w Q := by
  have hnone : Records x y w fun _ _ => False := of_aside hx hy
  exact hnone.bind hy htame hf fun a w₁ hR =>
    (hf a w₁ hR).does.mono fun _ _ _ _ hfalse => hfalse.elim

/-- A first part that lists nothing and whose run is known. -/
theorem step {a : α} {w₁ : Tracker σ} (hx : Aside x y) (hrun : y.run w = (.ok a, w₁))
    (hf : Records (f a) (g a) w₁ Q) : Records (x >>= f) (y >>= g) w Q := by
  unfold Records at hf ⊢
  have hrest : (y >>= g).run w = (g a).run w₁ := by rw [run_bind, hrun]
  rw [hrest]
  intro fits listed
  obtain ⟨b, w₂, listed₂, hrun₂, hrecorded, hlisted⟩ := hf fits listed
  refine ⟨b, w₂, listed₂, hrun₂, ?_, hlisted⟩
  rw [run_bind, hx, hrun]
  exact hrecorded

/-- Another result is given in the end. -/
theorem bind_pure (hx : Records x y w P) (h : α → β) :
    Records (do let a ← x; pure (h a)) (do let a ← y; pure (h a)) w P := by
  exact hx.before hx.does (fun _ => .pure _) (fun _ => .pure _) fun _ _ _ => .pure fun _ hs => hs

theorem attempt_bind {f : Except ε α → Track (σ × List H) ε' β} {g : Except ε α → Track σ ε' β}
    (hx : Records x y w P) (hy : Does y w True R) (htame : ∀ r, Tame (g r))
    (hf : ∀ a w₁, R a w₁ → Records (f (.ok a)) (g (.ok a)) w₁ Q)
    (hkeep : ∀ a w₁, R a w₁ → Does (g (.ok a)) w₁ True fun _ w₂ => ∀ s, P s w₁ → Q s w₂) :
    Records (attempt x >>= f) (attempt y >>= g) w Q := by
  have hattempt : Records (attempt x : Track (σ × List H) ε' (Except ε α)) (attempt y) w P := by
    intro fits listed
    obtain ⟨a, w', listed', hrun, hrecorded, hlisted⟩ := hx fits listed
    exact ⟨.ok a, w', listed', by rw [run_attempt, hrun], by rw [run_attempt, hrecorded], hlisted⟩
  refine hattempt.bind hy.attempt htame ?_ ?_
  · rintro _ w₁ ⟨a, rfl, hR⟩
    exact hf a w₁ hR
  · rintro _ w₁ ⟨a, rfl, hR⟩
    exact hkeep a w₁ hR

theorem wrapping {wrap : ε → ε'} (h : Records x y w P) :
    Records (wrapping wrap x) (wrapping wrap y) w P := by
  intro fits listed
  have hfits : (y.run w).2.tree.Fits := by
    rw [run_wrapping] at fits
    generalize y.run w = outcome at fits ⊢
    obtain ⟨r, w'⟩ := outcome
    cases r <;> exact fits
  obtain ⟨a, w', listed', hrun, hrecorded, hlisted⟩ := h hfits listed
  exact ⟨a, w', listed', by rw [run_wrapping, hrun], by rw [run_wrapping, hrecorded], hlisted⟩

theorem releasing (h : Records x y w P)
    (hP : ∀ s w' leases, P s w' → Q s { w' with leases }) :
    Records (releasing x) (releasing y) w Q := by
  intro fits listed
  obtain ⟨a, w', listed', hrun, hrecorded, hlisted⟩ := h fits listed
  refine ⟨a, { w' with leases := w'.leases.giveBack }, listed', by rw [run_releasing, hrun], ?_,
    fun s hs => (hlisted s hs).imp_right (hP s w' _)⟩
  rw [run_releasing, hrecorded]
  rfl

end Records

end Tracker

end TreeWatch
