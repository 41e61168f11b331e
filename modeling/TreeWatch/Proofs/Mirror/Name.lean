import TreeWatch.Proofs.Mirror.Update

/-!
# What becomes of a name

A scan that is not strict takes a name for right if the inode number fits. The name may be stale
though: the number may have gone to the object that has the name now. As long as nothing else gives
that object a record the name stays as it is. Once the object gets a record, the old one goes and takes
the name with it.

## Main definitions

- `View.Stale` : a name leads to the record of an earlier object with the same inode number
- `View.Lost` : a name leads nowhere although its object has a record
- `View.Done` : a name as a scan may leave it

## Main results

- `View.Updates.missed` : a stale name stays stale, gets lost or becomes right
- `View.Updates.stale_back` : updates make no name stale
- `View.Done.agrees` : strict scans leave names right, and others do if no number leads astray
-/

namespace TreeWatch

namespace Disk

variable {d : Disk} {present : Serial → Prop}

theorem Distinguishes.of_child? (h : d.Distinguishes present) {s c : Serial} {name : Bytes}
    (hc : d.child? s name = some c) : present c :=
  h.of_named (.inr ⟨s, name, hc⟩)

end Disk

namespace View

/-- The name leads to the record of another object than on the disk, with the same inode number. -/
def Stale (v : View) (d : Disk) (p : InodeId) (s : Serial) (name : Bytes) : Prop :=
  v.Holds d p s ∧ ∃ j o c, v.child p name = some j ∧ v.Holds d j o ∧ d.child? s name = some c ∧
    d.inoAt o = d.inoAt c ∧ o ≠ c

/-- The name leads nowhere although its object has a record. -/
def Lost (v : View) (d : Disk) (p : InodeId) (s : Serial) (name : Bytes) : Prop :=
  v.child p name = none ∧ ∃ c k, d.child? s name = some c ∧ v.Holds d k c

/-- A name that was taken for right although it was stale, and what may have become of it since. -/
def Missed (v : View) (d : Disk) (p : InodeId) (s : Serial) (name : Bytes) : Prop :=
  v.Stale d p s name ∨ v.Lost d p s name

/-- What a scan that begins at `v` and ends at `v'` makes of a name. -/
def Done (strict : Bool) (d : Disk) (v v' : View) (p : InodeId) (s : Serial) (name : Bytes) : Prop :=
  v'.Agrees d p s name ∨ (strict = false ∧ v.Stale d p s name ∧ v'.Missed d p s name)

variable {d : Disk} {present : Serial → Prop} {v v' v'' : View} {p : InodeId} {s : Serial}
  {name : Bytes} {strict : Bool}

/-! ### Stale names -/

/-- The record that takes the place of a stale one is that of the object with the name. -/
theorem Stale.lost_of_replace (hd : d.Distinguishes present) {x i : InodeId} {o s' : Serial}
    {a : Attributes} (h : v.Stale d p s name) (hname : v.child p name = some x)
    (hx : v.Holds d x o) (hino : d.inoAt o = a.ino) (hs' : present s')
    (ha : d.attributes s' = .ok a) :
    ((v.destroy x).insert i a (Disk.tokenOf s')).Lost d p s name := by
  obtain ⟨hp, j, o', c, hj, hjo, hc, hsame, hne⟩ := h
  rw [hname] at hj
  cases hj
  obtain rfl := hx.serial_eq hd.regular hjo
  have hnew : ((v.destroy x).insert i a (Disk.tokenOf s')).Current d i s' := current_insert ha
  -- both are present and have the number of the stale record
  have heq : s' = c := by
    refine hd.eq_of_ino_eq hs' (hd.of_child? hc) ?_
    rw [← Disk.ino_of_attributes ha, ← hino, hsame]
  subst heq
  refine ⟨?_, s', i, hc, hnew.holds⟩
  rw [child_insert, child_destroy]
  split
  · rfl
  · rw [hname]
    simp

theorem Update.stale (hd : d.Distinguishes present) (h : Update d present v v') (hs : present s)
    (hstale : v.Stale d p s name) : v'.Agrees d p s name ∨ v'.Missed d p s name := by
  obtain ⟨hp, j, o, c, hj, hjo, hc, hsame, hne⟩ := id hstale
  have hp' : v'.Holds d p s := h.holds hd.regular hs hp
  have hkept : v'.child p name = some j → v'.Holds d j o → v'.Missed d p s name :=
    fun hj' hjo' => .inl ⟨hp', j, o, c, hj', hjo', hc, hsame, hne⟩
  cases h with
  | insert hunused _ _ _ => exact .inr (hkept hj (holds_insert_of_live hunused hjo))
  | @replace x i o' s' a hx ho' hino hunused hs' ha =>
    by_cases hjx : j = x
    · subst hjx
      exact .inr (.inr (hstale.lost_of_replace hd hj hx hino hs' ha))
    · have hpx : p ≠ x := hp.ne_of_not_present hd.regular hs hx ho'
      refine .inr (hkept ?_ (holds_insert_of_live hunused (holds_destroy.2 ⟨hjx, hjo⟩)))
      rw [child_insert, child_destroy, if_neg hpx, hj]
      simp [hjx]
  | refresh _ _ => exact .inr (hkept hj (holds_refresh.2 hjo))
  | @bind p' c' name' s' o' hp'' _ _ ho' hc' =>
    by_cases hplace : p = p' ∧ name = name'
    · obtain ⟨rfl, rfl⟩ := hplace
      obtain rfl := hp.serial_eq hd.regular hp''
      exact .inl (agrees_bind ho' hc')
    · exact .inr (hkept (by rw [child_bind, if_neg hplace, hj]) hjo)
  | @unbind p' name' s' hp'' _ _ hwrong =>
    by_cases hplace : p = p' ∧ name = name'
    · obtain ⟨rfl, rfl⟩ := hplace
      obtain rfl := hp.serial_eq hd.regular hp''
      -- a name is only unbound when its object has a record
      obtain ⟨⟨k, hk⟩, -⟩ := hwrong c hc
      exact .inr (.inr ⟨by rw [child_unbind, if_pos ⟨rfl, rfl⟩], c, k, hc, hk⟩)
    · exact .inr (hkept (by rw [child_unbind, if_neg hplace, hj]) hjo)
  | root _ => exact .inr (hkept hj hjo)

theorem Update.lost (hd : d.Distinguishes present) (h : Update d present v v') (hp : v.Holds d p s)
    (hlost : v.Lost d p s name) : v'.Agrees d p s name ∨ v'.Lost d p s name := by
  obtain ⟨hnone, c, k, hc, hk⟩ := hlost
  have hk' : v'.Holds d k c := h.holds hd.regular (hd.of_child? hc) hk
  have hkept : v'.child p name = none → v'.Lost d p s name := fun hnone' => ⟨hnone', c, k, hc, hk'⟩
  cases h with
  | insert _ _ _ _ => exact .inr (hkept hnone)
  | replace _ _ _ _ _ _ =>
    refine .inr (hkept ?_)
    rw [child_insert, child_destroy, hnone]
    split <;> rfl
  | refresh _ _ => exact .inr (hkept hnone)
  | @bind p' c' name' s' o' hp' _ _ ho' hc' =>
    by_cases hplace : p = p' ∧ name = name'
    · obtain ⟨rfl, rfl⟩ := hplace
      obtain rfl := hp.serial_eq hd.regular hp'
      exact .inl (agrees_bind ho' hc')
    · exact .inr (hkept (by rw [child_bind, if_neg hplace, hnone]))
  | unbind _ _ _ _ =>
    refine .inr (hkept ?_)
    rw [child_unbind, hnone]
    split <;> rfl
  | root _ => exact .inr (hkept hnone)

/-- A stale name stays stale until its object gets a record; then it is lost until it is bound
again. -/
theorem Updates.missed (hd : d.Distinguishes present) (h : Updates d present v v') (hs : present s)
    (hp : v.Holds d p s) (hmissed : v.Missed d p s name) :
    v'.Agrees d p s name ∨ v'.Missed d p s name := by
  induction h with
  | refl => exact .inr hmissed
  | tail hfirst hlast ih =>
    have hmid := Updates.holds hd.regular hfirst hs hp
    rcases ih with hagrees | hstale | hlost
    · exact .inl (hlast.agrees hd hs hmid hagrees)
    · exact hlast.stale hd hs hstale
    · exact (hlast.lost hd hmid hlost).imp_right .inr

/-- A name that is stale after updates was so before. -/
theorem Updates.stale_back (hd : d.Distinguishes present) (h : Updates d present v v')
    (hstale : v'.Stale d p s name) : v.Stale d p s name := by
  obtain ⟨hp, j, o, c, hj, hjo, hc, hsame, hne⟩ := hstale
  rcases Updates.child hd h hj with ⟨hold, hback⟩ | ⟨s', o', hp', -, -, ho', hjo'⟩
  · exact ⟨hback p (.inl rfl) s hp, j, o, c, hold, hback j (.inr rfl) o hjo, hc, hsame, hne⟩
  · obtain rfl := hp.serial_eq hd.regular hp'
    rw [hc] at ho'
    cases ho'
    exact absurd (hjo.serial_eq hd.regular hjo') hne

/-- Where no inode number leads to the record of another object, no name is stale. -/
theorem Fresh.not_stale (hd : d.Distinguishes present) (h : v.Fresh d present) :
    ¬v.Stale d p s name := by
  rintro ⟨-, j, o, c, -, hjo, hc, hsame, hne⟩
  exact hne (h j o c hjo (hd.of_child? hc) hsame)

/-! ### Names as scans leave them -/

/-- What a scan has made of a name outlives what happens later. -/
theorem Done.mono (hd : d.Distinguishes present) (h : Done strict d v v' p s name)
    (hlater : Updates d present v' v'') (hs : present s) (hp : v'.Holds d p s) :
    Done strict d v v'' p s name := by
  rcases h with hagrees | ⟨hstrict, hstale, hmissed⟩
  · exact .inl (Updates.agrees hd hlater hs hp hagrees)
  · exact (Updates.missed hd hlater hs hp hmissed).imp_right fun hmissed' =>
      ⟨hstrict, hstale, hmissed'⟩

/-- What happened before does not count. -/
theorem Done.of_later (hd : d.Distinguishes present) (hearlier : Updates d present v v')
    (h : Done strict d v' v'' p s name) : Done strict d v v'' p s name :=
  h.imp_right fun ⟨hstrict, hstale, hmissed⟩ =>
    ⟨hstrict, Updates.stale_back hd hearlier hstale, hmissed⟩

theorem Done.agrees (hd : d.Distinguishes present) (h : Done strict d v v' p s name)
    (hgood : strict = true ∨ v.Fresh d present) : v'.Agrees d p s name := by
  rcases h with hagrees | ⟨hstrict, hstale, -⟩
  · exact hagrees
  · rcases hgood with hstrict' | hfresh
    · rw [hstrict] at hstrict'
      cases hstrict'
    · exact absurd hstale (hfresh.not_stale hd)

end View

end TreeWatch
