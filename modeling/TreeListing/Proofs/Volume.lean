import TreeListing.Proofs.Alike
import TreeListing.Volume

/-!
Writing to one file of a volume. Whatever is put at a place, everything else stays as it is but for the time
of the folder that the place is in; so every path that leads somewhere else still leads there, and a disk
answers alike about it.
-/
namespace TreeListing.Volume

/-- What is in the file at a place. -/
def contentAt? (v : Volume) (place : List String) : Option (List UInt8) :=
  match v.entry? place with
  | some (.file content _) => some content
  | _ => none

def Target.place : Target → List String
  | .entry place _ | .vacant place => place

section
variable {v : Volume} {place other : List String}

theorem entry?_touch (v : Volume) (place other : List String) :
    Volume.entry? (v.touch place) other
      = if other = place then (v.entry? other).map Entry.touched else v.entry? other := by
  unfold entry? touch
  rw [lookup_update]
  by_cases top : other = []
  · simp [top, Entry.touched]
  · rw [if_neg top, if_neg top]
    by_cases ho : other = place
    · simp [ho]
    · simp [ho]

theorem cwd_put (v : Volume) (place : List String) (e : Entry) : (v.put place e).cwd = v.cwd := by
  rw [put]
  split
  · rfl
  · rfl

theorem now_put (v : Volume) (place : List String) (e : Entry) : (v.put place e).now = v.now := by
  rw [put]
  split
  · rfl
  · rfl

theorem namesAt_update (v : Volume) (change : List String → Entry → Entry) (other : List String) :
    (v.update change).namesAt other = v.namesAt other := by
  rw [namesAt, namesAt, update, List.filterMap_map]
  rfl

theorem namesAt_put (v : Volume) (e : Entry) (h : other ≠ place.dropLast) :
    (v.put place e).namesAt other = v.namesAt other := by
  rw [put]
  split
  · exact namesAt_update _ _ _
  · rw [namesAt, namesAt, List.filterMap_append]
    simp [Ne.symm h]

theorem contentAt?_of_file {content : List UInt8} {modified? : Option Instant}
    (h : v.entry? place = some (.file content modified?)) : v.contentAt? place = some content := by
  rw [contentAt?, h]

theorem contentAt?_of_none (h : v.entry? place = none) : v.contentAt? place = none := by
  rw [contentAt?, h]

end

/-- What stands at a place before and after something was written to the file at `place`: nothing else changes
but the time of the folder that it is in. -/
inductive SameEntry (place other : List String) : Option Entry → Option Entry → Prop
  | same (h : other ≠ place) {e? : Option Entry} : SameEntry place other e? e?
  | parent (h : other = place.dropLast) {time? time?' : Option Instant} :
      SameEntry place other (some (.folder time?)) (some (.folder time?'))
  | created (h : other = place) {content : List UInt8} {modified? : Option Instant} :
      SameEntry place other none (some (.file content modified?))
  | written (h : other = place) {content content' : List UInt8} {modified? modified?' : Option Instant} :
      SameEntry place other (some (.file content modified?)) (some (.file content' modified?'))

/-- The volumes differ only in the file at the place, which may be new in the second one, and in the time of
the folder that it is in. -/
structure SameApart (place : List String) (v w : Volume) : Prop where
  cwd : w.cwd = v.cwd
  now : w.now = v.now
  inside : place ≠ []
  entry : ∀ other, SameEntry place other (v.entry? other) (w.entry? other)
  names : ∀ other ≠ place.dropLast, w.namesAt other = v.namesAt other

theorem dropLast_ne {place : List String} (h : place ≠ []) : place.dropLast ≠ place := by
  intro he
  have hl := congrArg List.length he
  rw [List.length_dropLast] at hl
  have := List.length_pos_of_ne_nil h
  omega

namespace SameApart

variable {place : List String} {v w : Volume}

theorem after (h : SameApart place v w) {other : List String} {e? : Option Entry} (he : v.entry? other = e?) :
    ∃ e?', w.entry? other = e?' ∧ SameEntry place other e? e?' := ⟨_, rfl, he ▸ h.entry other⟩

theorem put (h : SameApart place v w) (content : List UInt8) (modified? : Option Instant) :
    SameApart place v (w.put place (.file content modified?)) where
  cwd := (cwd_put w place _).trans h.cwd
  now := (now_put w place _).trans h.now
  inside := h.inside
  entry := by
    intro other
    have hs := h.entry other
    rw [entry?_put w h.inside]
    split
    next ho =>
      generalize w.entry? other = after at hs
      generalize v.entry? other = before at hs ⊢
      cases hs with
      | same hne => exact absurd ho hne
      | parent hp => exact absurd (hp.symm.trans ho) (dropLast_ne h.inside)
      | created => exact .created ho
      | written => exact .written ho
    next => exact hs
  names := by
    intro other ho
    rw [namesAt_put w _ ho]
    exact h.names other ho

theorem refl_of_file {content : List UInt8} {modified? : Option Instant}
    (h : v.entry? place = some (.file content modified?)) : SameApart place v v where
  cwd := rfl
  now := rfl
  inside := by
    rintro rfl
    cases h
  entry := by
    intro other
    by_cases ho : other = place
    · rw [ho, h]
      exact .written rfl
    · exact .same ho
  names := fun other _ => rfl

theorem add_of_vacant (hp : place ≠ []) (h : v.entry? place = none) (content : List UInt8)
    (modified? : Option Instant) : SameApart place v (v.add place (.file content modified?)) where
  cwd := cwd_put v place _
  now := now_put v place _
  inside := hp
  entry := by
    intro other
    rw [add, entry?_touch, entry?_put v hp]
    by_cases ho : other = place
    · rw [if_pos ho, ho, h, if_neg (dropLast_ne hp).symm]
      exact .created rfl
    · rw [if_neg ho]
      split
      next hparent =>
        cases v.entry? other with
        | none => exact .same ho
        | some e =>
          cases e with
          | folder time? => exact .parent hparent
          | file => exact .same ho
          | link => exact .same ho
      next => exact .same ho
  names := by
    intro other ho
    rw [add, touch, namesAt_update, namesAt_put v _ ho]

end SameApart

/-- What a target says of its place. -/
def Target.Fits (v : Volume) : Target → Prop
  | .entry place e => v.entry? place = some e
  | .vacant place => v.entry? place = none ∧ place ≠ []

theorem fits_of_follow {v : Volume} {last : Bool} {links : Nat} {here todo : List String} {t : Target}
    (h : v.follow last links here todo = .ok t) : t.Fits v := by
  fun_induction Volume.follow v last links here todo with
  | case1 | case9 | case11 =>
    obtain rfl := Except.ok.inj h
    assumption
  | case6 =>
    obtain rfl := Except.ok.inj h
    exact ⟨by assumption, List.concat_ne_nil _ _⟩
  | case3 | case4 | case8 | case14 => rename_i ih; exact ih h
  | _ => cases h

theorem fits_of_resolve {v : Volume} {last : Bool} {p : Path} {t : Target} (h : v.resolve last p = .ok t) :
    t.Fits v := by
  rw [resolve] at h
  split at h
  · cases h
  · split at h
    · cases h
    · split at h
      · cases h
      · exact fits_of_follow h

/-- All folders on the way to a place are there. -/
def Rooted (v : Volume) (here : List String) : Prop :=
  ∀ other ≠ [], other <+: here → ∃ time?, v.entry? other = some (.folder time?)

theorem rooted_nil (v : Volume) : v.Rooted [] := fun _ hne hp => absurd (List.prefix_nil.mp hp) hne

theorem Rooted.dropLast {v : Volume} {here : List String} (h : v.Rooted here) : v.Rooted here.dropLast :=
  fun other hne hp => h other hne (hp.trans (List.dropLast_prefix here))

theorem Rooted.concat {v : Volume} {here : List String} (h : v.Rooted here) {name : String}
    {time? : Option Instant} (he : v.entry? (here ++ [name]) = some (.folder time?)) :
    v.Rooted (here ++ [name]) := by
  intro other hne hp
  rcases List.prefix_concat_iff.mp hp with rfl | hp
  · exact ⟨time?, he⟩
  · exact h other hne hp

/-- Where a path leads on volumes that differ in the file at the place. Only from a folder that is not there
itself a way may lead to the new file and to nothing before. -/
inductive SameTarget (place : List String) (rooted : Prop) :
    Except SystemError Target → Except SystemError Target → Prop
  | same {t : Target} (h : t.place ≠ place) : SameTarget place rooted (.ok t) (.ok t)
  | parent {time? time?' : Option Instant} : SameTarget place rooted
      (.ok (.entry place.dropLast (.folder time?))) (.ok (.entry place.dropLast (.folder time?')))
  | created {content : List UInt8} {modified? : Option Instant} :
      SameTarget place rooted (.ok (.vacant place)) (.ok (.entry place (.file content modified?)))
  | written {content content' : List UInt8} {modified? modified?' : Option Instant} :
      SameTarget place rooted (.ok (.entry place (.file content modified?)))
        (.ok (.entry place (.file content' modified?')))
  | failed {e e' : SystemError} : SameTarget place rooted (.error e) (.error e')
  | lost {e : SystemError} {content : List UInt8} {modified? : Option Instant} (h : ¬rooted) :
      SameTarget place rooted (.error e) (.ok (.entry place (.file content modified?)))

section
variable {place : List String} {v w : Volume}

theorem follow_name {last : Bool} {links : Nat} {here rest : List String} {name : String} (hdot : name ≠ ".")
    (hup : name ≠ "..") (hshort : ¬nameLimit < name.utf8ByteSize) :
    w.follow last links here (name :: rest) =
      match w.entry? (here ++ [name]) with
      | none => if rest = [] then .ok (.vacant (here ++ [name])) else .error .notFound
      | some (.folder _) => w.follow last links (here ++ [name]) rest
      | some (.file content modified?) =>
        if rest = [] then .ok (.entry (here ++ [name]) (.file content modified?)) else .error .notADirectory
      | some (.link target) =>
        if rest = [] ∧ !last then .ok (.entry (here ++ [name]) (.link target))
        else match links with
          | 0 => .error .filesystemLoop
          | links + 1 =>
            if target.text = "" then .error .notFound
            else w.follow last links (if target.isAbsolute then [] else here) (segments target ++ rest) := by
  rw [Volume.follow, if_neg hdot, if_neg hup]
  exact if_neg hshort

theorem sameTarget_follow (h : SameApart place v w) {rooted : Prop} {last : Bool} {links : Nat}
    {here todo : List String} (hr : rooted → v.Rooted here) :
    SameTarget place rooted (v.follow last links here todo) (w.follow last links here todo) := by
  fun_induction Volume.follow v last links here todo with
  | case1 links here e he =>
    obtain ⟨after, ha, hs⟩ := h.after he
    rw [Volume.follow, ha]
    cases hs with
    | same hne => exact .same hne
    | parent hp => subst hp; exact .parent
    | written hp => subst hp; exact .written
  | case2 links here he =>
    obtain ⟨after, ha, hs⟩ := h.after he
    rw [Volume.follow, ha]
    cases hs with
    | same => exact .failed
    | created hp =>
      subst hp
      refine .lost fun hrooted => ?_
      obtain ⟨time?, ht⟩ := hr hrooted here h.inside (List.prefix_refl here)
      rw [he] at ht
      cases ht
  | case3 links here rest ih =>
    rw [Volume.follow, if_pos rfl]
    exact ih hr
  | case4 links here rest hdot ih =>
    rw [Volume.follow, if_neg hdot, if_pos rfl]
    exact ih fun hrooted => (hr hrooted).dropLast
  | case5 links here name rest hdot hup hlong =>
    rw [Volume.follow, if_neg hdot, if_neg hup, if_pos hlong]
    exact .failed
  | case6 links here name hdot hup hshort other he =>
    obtain ⟨after, ha, hs⟩ := h.after he
    rw [follow_name hdot hup hshort, ha]
    cases hs with
    | same hne => exact .same hne
    | created hp => subst hp; exact .created
  | case7 links here name rest hdot hup hshort other he hrest =>
    obtain ⟨after, ha, hs⟩ := h.after he
    rw [follow_name hdot hup hshort, ha]
    cases hs with
    | same => simp only [if_neg hrest]; exact .failed
    | created => simp only [if_neg hrest]; exact .failed
  | case8 links here name rest hdot hup hshort other time? he ih =>
    obtain ⟨after, ha, hs⟩ := h.after he
    rw [follow_name hdot hup hshort, ha]
    cases hs with
    | same => exact ih fun hrooted => (hr hrooted).concat he
    | parent => exact ih fun hrooted => (hr hrooted).concat he
  | case9 links here name hdot hup hshort other content modified? he =>
    obtain ⟨after, ha, hs⟩ := h.after he
    rw [follow_name hdot hup hshort, ha]
    cases hs with
    | same hne => exact .same hne
    | written hp => subst hp; exact .written
  | case10 links here name rest hdot hup hshort other content modified? he hrest =>
    obtain ⟨after, ha, hs⟩ := h.after he
    rw [follow_name hdot hup hshort, ha]
    cases hs with
    | same => simp only [if_neg hrest]; exact .failed
    | written => simp only [if_neg hrest]; exact .failed
  | case11 links here name rest hdot hup hshort other target he hend =>
    obtain ⟨after, ha, hs⟩ := h.after he
    rw [follow_name hdot hup hshort, ha]
    cases hs with
    | same hne => simp only [if_pos hend]; exact .same hne
  | case12 here name rest hdot hup hshort other target he hend =>
    obtain ⟨after, ha, hs⟩ := h.after he
    rw [follow_name hdot hup hshort, ha]
    cases hs with
    | same hne => simp only [if_neg hend]; exact .failed
  | case13 here name rest hdot hup hshort other target he hend links hempty =>
    obtain ⟨after, ha, hs⟩ := h.after he
    rw [follow_name hdot hup hshort, ha]
    cases hs with
    | same hne => simp only [if_neg hend, if_pos hempty]; exact .failed
  | case14 here name rest hdot hup hshort other target he hend links hempty ih =>
    obtain ⟨after, ha, hs⟩ := h.after he
    rw [follow_name hdot hup hshort, ha]
    cases hs with
    | same hne =>
      simp only [if_neg hend, if_neg hempty]
      apply ih
      intro hrooted
      split
      · exact rooted_nil v
      · exact hr hrooted

/-- A path that does not start from the working folder starts from a folder that is there. -/
theorem sameTarget_resolve (h : SameApart place v w) (last : Bool) (p : Path) :
    SameTarget place (p.isAbsolute = true) (v.resolve last p) (w.resolve last p) := by
  rw [resolve, resolve]
  split
  · exact .failed
  · split
    · exact .failed
    · split
      · exact .failed
      · rw [h.cwd]
        apply sameTarget_follow h
        intro ha
        rw [if_pos ha]
        exact rooted_nil v

theorem SameApart.isFolder (h : SameApart place v w) (p : Path) : w.disk.isFolder p = v.disk.isFolder p := by
  have ht := sameTarget_resolve h true p
  rw [Disk.isFolder, Disk.isFolder]
  simp only [disk, find]
  generalize v.resolve true p = before at ht ⊢
  generalize w.resolve true p = after at ht ⊢
  cases ht with
  | @same t =>
    cases t with
    | entry other e => cases e <;> rfl
    | vacant => rfl
  | parent => rfl
  | created => rfl
  | written => rfl
  | failed => rfl
  | lost => rfl

end

/-- The path leads neither to the place nor to the folder that it is in. -/
def Spares (v : Volume) (place : List String) (p : Path) : Prop :=
  ∀ t, v.resolve true p = .ok t → t.place ≠ place ∧ t.place ≠ place.dropLast

theorem isAbsolute_pathOf (place : List String) : (pathOf place).isAbsolute = true := by
  simp [Path.isAbsolute, pathOf]

section
variable {place : List String} {v w : Volume}

/-- What is found at the end of a path that spares the place is the same. -/
theorem find_cases (h : SameApart place v w) {p : Path} (ha : p.isAbsolute = true) (hp : v.Spares place p) :
    (∃ other e, other ≠ place.dropLast ∧ v.find p = .ok (other, e) ∧ w.find p = .ok (other, e)) ∨
      ∃ e e', v.find p = .error e ∧ w.find p = .error e' := by
  have ht := sameTarget_resolve h true p
  have hspared := hp
  rw [Spares] at hspared
  rw [find, find]
  generalize v.resolve true p = before at ht hspared ⊢
  generalize w.resolve true p = after at ht ⊢
  cases ht with
  | @same t =>
    cases t with
    | entry other e => exact .inl ⟨other, e, (hspared _ rfl).2, rfl, rfl⟩
    | vacant other => exact .inr ⟨.notFound, .notFound, rfl, rfl⟩
  | parent => exact absurd rfl (hspared _ rfl).2
  | created => exact absurd rfl (hspared _ rfl).1
  | written => exact absurd rfl (hspared _ rfl).1
  | failed => exact .inr ⟨_, _, rfl, rfl⟩
  | lost hn => exact absurd ha hn

theorem SameApart.alikeAt (h : SameApart place v w) {i : Item} (ha : i.abspath.isAbsolute = true)
    (hp : v.Spares place i.abspath) : v.disk.AlikeAt w.disk i := by
  rcases find_cases h ha hp with ⟨other, e, hne, hv, hw⟩ | ⟨e, e', hv, hw⟩
  · refine ⟨?_, ?_, ?_⟩
    · have hm : w.metadataOf e = v.metadataOf e := by
        cases e <;> simp only [metadataOf, h.now]
      simp only [disk, hv, hw]
      exact congrArg some hm
    · simp only [disk, hv, hw]
      cases e with
      | folder time? => exact congrArg some (h.names other hne)
      | file => rfl
      | link => rfl
    · simp only [disk, hv, hw]
  · refine ⟨?_, ?_, ?_⟩
    · simp only [disk, hv, hw]
      rfl
    · simp only [disk, hv, hw]
      rfl
    · simp only [disk, hv, hw]
      rfl

theorem SameApart.contentAt? (h : SameApart place v w) {other : List String} (ho : other ≠ place) :
    w.contentAt? other = v.contentAt? other := by
  have hs := h.entry other
  rw [Volume.contentAt?, Volume.contentAt?]
  generalize v.entry? other = before at hs ⊢
  generalize w.entry? other = after at hs ⊢
  cases hs with
  | same => rfl
  | parent => rfl
  | created hp => exact absurd hp ho
  | written hp => exact absurd hp ho

/-- A file is opened where there is one or can be one, and nothing else happens to the volume. -/
theorem openOutput_cases {p : Path} {append : Bool} (h : v.openOutput p append = .ok (place, w)) :
    (∃ content modified?, v.entry? place = some (.file content modified?) ∧
        w = v.put place (if append then .file content modified? else .file [] none)) ∨
      v.entry? place = none ∧ place ≠ [] ∧ w = v.add place (.file [] none) := by
  obtain ⟨t, ht, h⟩ := bind_eq_ok.mp h
  have hfits := fits_of_resolve ht
  cases t with
  | entry other e =>
    cases e with
    | file content modified? =>
      simp only at h
      split at h
      · cases h
      · obtain ⟨rfl, rfl⟩ := Prod.mk.inj (Except.ok.inj h)
        exact .inl ⟨content, modified?, hfits, rfl⟩
    | folder => cases h
    | link => cases h
  | vacant other =>
    simp only at h
    split at h
    · cases h
    · obtain ⟨rfl, rfl⟩ := Prod.mk.inj (Except.ok.inj h)
      exact .inr ⟨hfits.1, hfits.2, rfl⟩

theorem sameApart_of_openOutput {p : Path} {append : Bool} (h : v.openOutput p append = .ok (place, w)) :
    SameApart place v w := by
  rcases openOutput_cases h with ⟨content, modified?, he, rfl⟩ | ⟨he, hne, rfl⟩
  · have hsame := SameApart.refl_of_file he
    split
    · exact hsame.put content modified?
    · exact hsame.put [] none
  · exact .add_of_vacant hne he [] none

/-- Opened for appending, a file keeps what it holds; else it is empty. -/
theorem contentAt?_of_openOutput {p : Path} {append : Bool} (h : v.openOutput p append = .ok (place, w)) :
    w.contentAt? place = some (if append then (v.contentAt? place).getD [] else []) := by
  have hp : place ≠ [] := (sameApart_of_openOutput h).inside
  rcases openOutput_cases h with ⟨content, modified?, he, rfl⟩ | ⟨he, hne, rfl⟩
  · rw [contentAt?, entry?_put v hp, if_pos rfl, contentAt?_of_file he]
    cases append <;> rfl
  · rw [contentAt?_of_none he, contentAt?, add, entry?_touch, entry?_put v hp, if_pos rfl,
      if_neg (dropLast_ne hp).symm]
    cases append <;> rfl

theorem appendAt_eq {content : List UInt8} (h : w.contentAt? place = some content) (bytes : List UInt8) :
    w.appendAt place bytes = w.put place (.file (content ++ bytes) none) := by
  rw [contentAt?] at h
  split at h
  next content' modified? he =>
    obtain rfl := Option.some.inj h
    rw [appendAt, he]
  next => cases h

theorem contentAt?_appendAt {content : List UInt8} (hp : place ≠ []) (h : w.contentAt? place = some content)
    (bytes : List UInt8) : (w.appendAt place bytes).contentAt? place = some (content ++ bytes) := by
  rw [appendAt_eq h, contentAt?, entry?_put w hp, if_pos rfl]

theorem SameApart.appendAt (h : SameApart place v w) {content : List UInt8}
    (hc : w.contentAt? place = some content) (bytes : List UInt8) :
    SameApart place v (w.appendAt place bytes) := by
  rw [appendAt_eq hc]
  exact h.put _ _

theorem SameApart.reply (h : SameApart place v w) (replies : List Reply) :
    SameApart place v { w with replies } := ⟨h.cwd, h.now, h.inside, h.entry, h.names⟩

theorem replies_put (v : Volume) (place : List String) (e : Entry) : (v.put place e).replies = v.replies := by
  rw [put]
  split
  · rfl
  · rfl

theorem replies_of_openOutput {p : Path} {append : Bool} (h : v.openOutput p append = .ok (place, w)) :
    w.replies = v.replies := by
  rcases openOutput_cases h with ⟨content, modified?, -, rfl⟩ | ⟨-, -, rfl⟩
  · exact replies_put _ _ _
  · exact replies_put _ _ _

end

/-- A beginning of the bytes was put behind the content of the file, and the others are left; none if there
was no failure. -/
structure Wrote (v : Volume) (place : List String) (content bytes : List UInt8)
    (r : Except SystemError Unit × List UInt8 × Volume) : Prop where
  apart : v.SameApart place r.2.2
  held : ∃ taken, taken ++ r.2.1 = bytes ∧ r.2.2.contentAt? place = some (content ++ taken)
  whole : r.1 = .ok () → r.2.1 = []

/-- Pieces may be cut short or interrupted, but none is refused. -/
def TakesAll (v : Volume) : Prop := ∀ reply ∈ v.replies, reply = .interrupted ∨ ∃ count, reply = .taken (count + 1)

section
variable {place : List String} {v w : Volume} {content : List UInt8}

theorem wrote_writePieces (h : v.SameApart place w) (hc : w.contentAt? place = some content)
    (replies : List Reply) (bytes : List UInt8) : Wrote v place content bytes (writePieces place replies w bytes) := by
  fun_induction writePieces place replies w bytes generalizing content with
  | case1 replies w =>
    exact ⟨h.reply _, ⟨[], rfl, by rw [List.append_nil]; exact hc⟩, fun _ => rfl⟩
  | case2 w bytes =>
    exact ⟨(h.appendAt hc bytes).reply _, ⟨bytes, List.append_nil bytes,
      contentAt?_appendAt h.inside hc bytes⟩, fun _ => rfl⟩
  | case3 w bytes _ replies ih => exact ih h hc
  | case4 w bytes _ cause replies =>
    exact ⟨h.reply _, ⟨[], rfl, by rw [List.append_nil]; exact hc⟩, nofun⟩
  | case5 w bytes _ replies =>
    exact ⟨h.reply _, ⟨[], rfl, by rw [List.append_nil]; exact hc⟩, nofun⟩
  | case6 w bytes _ count replies ih =>
    obtain ⟨apart, ⟨taken, hbytes, hcontent⟩, whole⟩ := ih (h.appendAt hc _) (contentAt?_appendAt h.inside hc _)
    refine ⟨apart, ⟨bytes.take (count + 1) ++ taken, ?_, ?_⟩, whole⟩
    · rw [List.append_assoc, hbytes, List.take_append_drop]
    · rw [← List.append_assoc]
      exact hcontent

theorem wrote_writeAt (h : v.SameApart place w) (hc : w.contentAt? place = some content) (bytes : List UInt8) :
    Wrote v place content bytes (w.writeAt place bytes) := wrote_writePieces h hc w.replies bytes

theorem writeAt_nil (w : Volume) (place : List String) : w.writeAt place [] = (.ok (), [], w) := by
  rw [writeAt, writePieces.eq_def, if_pos rfl]

theorem writePieces_of_takesAll {replies : List Reply}
    (h : ∀ reply ∈ replies, reply = .interrupted ∨ ∃ count, reply = .taken (count + 1)) (bytes : List UInt8) :
    (writePieces place replies w bytes).1 = .ok () ∧ (writePieces place replies w bytes).2.2.TakesAll := by
  fun_induction writePieces place replies w bytes with
  | case1 replies w => exact ⟨rfl, h⟩
  | case2 w bytes => exact ⟨rfl, List.forall_mem_nil _⟩
  | case3 w bytes _ replies ih => exact ih (List.forall_mem_cons.mp h).2
  | case4 w bytes _ cause replies => simp at h
  | case5 w bytes _ replies => simp at h
  | case6 w bytes _ count replies ih => exact ih (List.forall_mem_cons.mp h).2

theorem writeAt_of_takesAll (h : w.TakesAll) (place : List String) (bytes : List UInt8) :
    (w.writeAt place bytes).1 = .ok () ∧ (w.writeAt place bytes).2.2.TakesAll := writePieces_of_takesAll h bytes

end

end TreeListing.Volume
