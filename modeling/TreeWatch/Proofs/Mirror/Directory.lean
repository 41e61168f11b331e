import TreeWatch.Proofs.Disk.Depth
import TreeWatch.Proofs.Mirror.Plain

/-!
# What becomes of a directory

A scan deals with all names of a directory, and with the directories that are new to the tree.

## Main definitions

- `Disk.Tidy`, `Disk.Listable` : nothing on the disk is out of order, or only what can be scanned
- `Disk.Met` : what scans come upon
- `View.Scanned` : a directory as a scan leaves it
- `View.Explored` : directories that are new to the tree have been scanned
- `View.Settled` : a directory that the tree shows as it is
- `View.Calm` : nothing on the disk is out of order, and no inode number leads astray

## Main results

- `View.Scanned.mono`, `View.Explored.trans` : scans add up
- `View.Scanned.settled` : in calm circumstances scanned directories are settled
-/

namespace TreeWatch

namespace Disk

/-- All present objects are ordinary. -/
def Tidy (d : Disk) (present : Serial → Prop) : Prop :=
  ∀ s n, present s → d.node? s = some n → n.Ordinary

/-- All present objects can be listed as far as they are directories. -/
def Listable (d : Disk) (present : Serial → Prop) : Prop :=
  ∀ s n, present s → d.node? s = some n → n.unlistable = false

/-- What scans come upon that begin with some objects: names that they deal with lead there. -/
inductive Met (d : Disk) (present start : Serial → Prop) : Serial → Prop
  | start {s : Serial} : start s → d.Met present start s
  | name {s c : Serial} {name : Bytes} :
    d.Met present start s → present s → d.Tends s name → d.child? s name = some c →
      d.Met present start c

variable {d : Disk} {present : Serial → Prop} {s : Serial} {name : Bytes}

theorem Met.trans {start start' : Serial → Prop} (h : d.Met present start s)
    (hstart : ∀ c, start c → d.Met present start' c) : d.Met present start' s := by
  induction h with
  | start hs => exact hstart _ hs
  | name _ hs htends hc ih => exact .name ih hs htends hc

theorem Tidy.listable (h : d.Tidy present) : d.Listable present :=
  fun s n hs hn => (h s n hs hn).2.2

theorem Distinguishes.of_below (h : d.Distinguishes present) {c : Serial} (hs : present s)
    (hc : d.Below s c) : present c := by
  rcases Relation.ReflTransGen.cases_tail hc with rfl | ⟨b, -, ⟨name, hname⟩, -⟩
  · exact hs
  · exact h.of_child? hname

theorem tidy_of_ordinary (h : ∀ n ∈ d.nodes, n.Ordinary) : d.Tidy present :=
  fun _ n _ hn => h n (List.mem_of_getElem? hn)

theorem Tidy.not_oversized (h : d.Tidy present) (hs : present s) : ¬d.Oversized s := by
  rintro ⟨n, hn, htrue⟩
  rw [(h s n hs hn).1] at htrue
  cases htrue

theorem Tidy.not_skips (h : d.Tidy present) (hd : d.Distinguishes present) (hs : present s) :
    ¬d.Skips s name := by
  unfold Skips
  split
  · next hc => exact h.not_oversized (hd.of_child? hc)
  · rintro ⟨n, hn, e, he, -⟩
    rw [(h s n hs hn).2.1] at he
    cases he

end Disk

namespace View

/-- A directory as a scan that begins at `v` and ends at `v'` leaves it. -/
def Scanned (strict : Bool) (d : Disk) (v v' : View) (s : Serial) : Prop :=
  ∃ p, v'.Current d p s ∧ (∀ name, ¬d.Skips s name → Done strict d v v' p s name) ∧
    (strict = true → ∀ name c, d.child? s name = some c → ¬d.Oversized c → ∃ j, v'.Current d j c)

/-- Every directory that has got a record has been scanned. -/
def Explored (strict : Bool) (d : Disk) (present : Serial → Prop) (v v' : View) : Prop :=
  ∀ c, present c → d.isDirectory c → v'.Held d c → v.Held d c ∨ Scanned strict d v v' c

/-- All names lead the same way in the record of the directory and in the directory. -/
def Settled (v : View) (d : Disk) (s : Serial) : Prop :=
  ∃ p, v.Holds d p s ∧ ∀ name, v.Agrees d p s name

/-- Scans go well and leave every name right. -/
def Calm (strict : Bool) (d : Disk) (present : Serial → Prop) (v : View) : Prop :=
  d.Tidy present ∧ (strict = true ∨ v.Fresh d present)

variable {strict : Bool} {d : Disk} {present : Serial → Prop} {v v' v'' : View} {s : Serial}

theorem Updates.settled (hd : d.Distinguishes present) (h : Updates d present v v')
    (hs : present s) (hsettled : v.Settled d s) : v'.Settled d s := by
  obtain ⟨p, hp, hnames⟩ := hsettled
  exact ⟨p, Updates.holds hd.regular h hs hp, fun name => Updates.agrees hd h hs hp (hnames name)⟩

theorem Updates.calm (hd : d.Distinguishes present) (h : Updates d present v v')
    (hcalm : v.Calm strict d present) : v'.Calm strict d present :=
  ⟨hcalm.1, hcalm.2.imp_right fun hfresh => Updates.fresh hd h hfresh⟩

/-! ### Scans add up -/

theorem Scanned.mono (hd : d.Distinguishes present) (h : Scanned strict d v v' s)
    (hlater : Updates d present v' v'') (hs : present s) : Scanned strict d v v'' s := by
  obtain ⟨p, hp, hnames, hchildren⟩ := h
  refine ⟨p, Updates.current hd.regular hlater hs hp, ?_, ?_⟩
  · exact fun name hskips => (hnames name hskips).mono hd hlater hs hp.holds
  · intro hstrict name c hc hsize
    obtain ⟨j, hj⟩ := hchildren hstrict name c hc hsize
    exact ⟨j, Updates.current hd.regular hlater (hd.of_child? hc) hj⟩

theorem Scanned.of_later (hd : d.Distinguishes present) (hearlier : Updates d present v v')
    (h : Scanned strict d v' v'' s) : Scanned strict d v v'' s := by
  obtain ⟨p, hp, hnames, hchildren⟩ := h
  exact ⟨p, hp, fun name hskips => (hnames name hskips).of_later hd hearlier, hchildren⟩

theorem Explored.refl : Explored strict d present v v :=
  fun _ _ _ hheld => .inl hheld

theorem Explored.trans (hd : d.Distinguishes present) (h : Explored strict d present v v')
    (hearlier : Updates d present v v') (h' : Explored strict d present v' v'')
    (hlater : Updates d present v' v'') : Explored strict d present v v'' := by
  intro c hc hdir hheld
  rcases h' c hc hdir hheld with hmid | hscanned
  · exact (h c hc hdir hmid).imp_right fun hscanned => hscanned.mono hd hlater hc
  · exact .inr (hscanned.of_later hd hearlier)

/-! ### Settled directories -/

theorem Scanned.settled (hd : d.Distinguishes present) (h : Scanned strict d v v' s)
    (hs : present s) (hcalm : v.Calm strict d present) : v'.Settled d s := by
  obtain ⟨p, hp, hnames, -⟩ := h
  exact ⟨p, hp.holds, fun name =>
    (hnames name (hcalm.1.not_skips hd hs)).agrees hd hcalm.2⟩

end View

end TreeWatch
