import TreeListing.OutputFile
import TreeListing.Proofs.Listing
import TreeListing.Proofs.Volume

/-!
Writing listings into a file of a volume, whose system may cut, interrupt or refuse what is written. What is in
the file and what still waits is a beginning of all that was to be written, and the walks go on as they would on
the volume that was there before, if the file lies outside of them.
-/
namespace TreeListing

open Medium (Output output)

/-- What was in the file at the place is still in front; the text is what was put behind it together with what
still waits, and the rest of the volume is as it was. -/
structure Medium.Output.Holds (v : Volume) (place : List String) (former text : List UInt8) (s : Output) :
    Prop where
  opened : s.place = place
  apart : v.SameApart place s.volume
  held : ∃ more, s.volume.contentAt? place = some (former ++ more) ∧ more ++ s.waiting = text

namespace Medium.Output

variable {v : Volume} {place : List String} {former text : List UInt8} {s : Output}

namespace Holds

theorem wait (h : s.Holds v place former text) (bytes : List UInt8) :
    Holds v place former (text ++ bytes) { s with waiting := s.waiting ++ bytes } := by
  obtain ⟨more, hc, rfl⟩ := h.held
  exact ⟨h.opened, h.apart, more, hc, (List.append_assoc _ _ _).symm⟩

/-- Bytes that are written past those that wait, when there are none. -/
theorem append (h : s.Holds v place former text) (hw : s.waiting = []) (bytes : List UInt8) :
    ∃ taken, taken <+: bytes ∧
      Holds v place former (text ++ taken) { s with volume := (s.volume.writeAt s.place bytes).2.2 } ∧
      ((s.volume.writeAt s.place bytes).1 = .ok () → taken = bytes) := by
  obtain ⟨more, hc, rfl⟩ := h.held
  obtain rfl := h.opened
  obtain ⟨apart, ⟨taken, hbytes, hcontent⟩, whole⟩ := Volume.wrote_writeAt h.apart hc bytes
  refine ⟨taken, ⟨_, hbytes⟩, ⟨rfl, apart, more ++ taken, ?_, ?_⟩, fun hok => ?_⟩
  · rw [← List.append_assoc]
    exact hcontent
  · rw [hw, List.append_nil, List.append_nil]
  · rw [whole hok, List.append_nil] at hbytes
    exact hbytes

theorem settle (h : s.Holds v place former text) :
    s.settle.2.Holds v place former text ∧ (s.settle.1 = .ok () → s.settle.2.waiting = []) := by
  obtain ⟨more, hc, rfl⟩ := h.held
  obtain rfl := h.opened
  obtain ⟨apart, ⟨taken, hbytes, hcontent⟩, whole⟩ := Volume.wrote_writeAt h.apart hc s.waiting
  refine ⟨⟨rfl, apart, more ++ taken, ?_, ?_⟩, whole⟩
  · rw [← List.append_assoc]
    exact hcontent
  · rw [List.append_assoc]
    exact congrArg (more ++ ·) hbytes

/-- A beginning of the bytes is written, or waits. It is all of them unless the writing fails. -/
theorem write (h : s.Holds v place former text) (bytes : List UInt8) :
    ∃ taken, taken <+: bytes ∧ (output.write bytes s).2.Holds v place former (text ++ taken) ∧
      ((output.write bytes s).1 = .ok () → taken = bytes) := by
  by_cases hroom : s.waiting.length + bytes.length < bufferSize
  · simp only [output, if_pos hroom]
    exact ⟨bytes, List.prefix_rfl, h.wait bytes, fun _ => rfl⟩
  · obtain ⟨r, hr, hholds, hwaiting⟩ : ∃ r, (if s.waiting.length + bytes.length ≤ bufferSize then (.ok (), s)
        else s.settle) = r ∧ r.2.Holds v place former text ∧
          (r.1 = .ok () → bufferSize ≤ bytes.length → r.2.waiting = []) := by
      refine ⟨_, rfl, ?_⟩
      split
      next hfull =>
        refine ⟨h, fun _ hlong => ?_⟩
        have hlen : s.waiting.length = 0 := by omega
        exact List.eq_nil_of_length_eq_zero hlen
      next => exact ⟨h.settle.1, fun hok _ => h.settle.2 hok⟩
    obtain ⟨result, s'⟩ := r
    simp only [output, if_neg hroom, hr]
    cases result with
    | error e =>
      refine ⟨[], List.nil_prefix, ?_, nofun⟩
      rw [List.append_nil]
      exact hholds
    | ok =>
      by_cases hlong : bufferSize ≤ bytes.length
      · simp only [if_pos hlong]
        exact hholds.append (hwaiting rfl hlong) bytes
      · simp only [if_neg hlong]
        exact ⟨bytes, List.prefix_rfl, hholds.wait bytes, fun _ => rfl⟩

/-- What was put into the file is a beginning of the text. -/
theorem contentAt? (h : s.Holds v place former text) :
    ∃ more, more <+: text ∧ s.volume.contentAt? place = some (former ++ more) ∧
      (s.waiting = [] → more = text) := by
  obtain ⟨more, hc, rfl⟩ := h.held
  refine ⟨more, List.prefix_append _ _, hc, fun hw => ?_⟩
  rw [hw, List.append_nil]

end Holds

theorem settle_of_waiting (h : s.waiting = []) : s.settle = (.ok (), s) := by
  obtain ⟨volume, place, waiting⟩ := s
  obtain rfl : waiting = [] := h
  rw [settle, Volume.writeAt_nil]

theorem settle_of_takesAll (h : s.volume.TakesAll) :
    s.settle.1 = .ok () ∧ s.settle.2.volume.TakesAll := Volume.writeAt_of_takesAll h s.place s.waiting

theorem write_of_takesAll (h : s.volume.TakesAll) (bytes : List UInt8) :
    (output.write bytes s).1 = .ok () ∧ (output.write bytes s).2.volume.TakesAll := by
  by_cases hroom : s.waiting.length + bytes.length < bufferSize
  · simp only [output, if_pos hroom]
    exact ⟨trivial, h⟩
  · obtain ⟨s', hs', htakes⟩ : ∃ s', (if s.waiting.length + bytes.length ≤ bufferSize then (.ok (), s)
        else s.settle) = (.ok (), s') ∧ s'.volume.TakesAll := by
      split
      · exact ⟨s, rfl, h⟩
      · exact ⟨_, Prod.ext (settle_of_takesAll h).1 rfl, (settle_of_takesAll h).2⟩
    simp only [output, if_neg hroom, hs']
    by_cases hlong : bufferSize ≤ bytes.length
    · simp only [if_pos hlong]
      exact Volume.writeAt_of_takesAll htakes s'.place bytes
    · simp only [if_neg hlong]
      exact ⟨trivial, htakes⟩

end Medium.Output

section
variable {σ : Type} {m : Medium σ} {l : Lister} {P : σ → Prop}

theorem Listing.writeText_keeps (hw : ∀ bytes s, P s → P (m.write bytes s).2) (text : String) {s : σ}
    (hs : P s) : P (writeText m text s).2 := hw _ s hs

theorem Listing.writeOptional_keeps (hw : ∀ bytes s, P s → P (m.write bytes s).2) (text : String) {s : σ}
    (hs : P s) : P (writeOptional m text s).2 := by
  rw [writeOptional]
  split
  · exact hs
  · exact writeText_keeps hw text hs

/-- What every writing keeps is kept by the tasks of a walk, also if the walk fails. -/
theorem Lister.writeTasks_keeps (hw : ∀ bytes s, P s → P (m.write bytes s).2) {count : Nat}
    {tasks : List Walk.Task} {s : σ} {r : Except ListError Nat × σ}
    (h : l.writeTasks m count tasks s = some r) (hs : P s) : P r.2 := by
  refine Lister.writeTasks.partial_correctness l m (fun _ _ s r => P s → P r.2) ?_ count tasks s r h hs
  rintro writeTasks ih count (_ | ⟨task, rest⟩) s r hr hs
  · obtain rfl := Option.some.inj hr
    exact hs
  · simp only at hr
    split at hr
    next => exact ih _ _ _ _ hr hs
    next =>
      obtain rfl := Option.some.inj hr
      exact hs
    next record _ =>
      have hwritten := Listing.writeText_keeps hw (l.line record) hs
      split at hr
      next hline =>
        rw [hline] at hwritten
        obtain rfl := Option.some.inj hr
        exact hwritten
      next hline =>
        rw [hline] at hwritten
        exact ih _ _ _ _ hr hwritten

theorem Listing.writeFolders_keeps (hw : ∀ bytes s, P s → P (m.write bytes s).2) {count : Nat}
    {folders : List Path} {s : σ} (hs : P s) : P (writeFolders m l count folders s).2 := by
  induction folders generalizing count s with
  | nil => exact hs
  | cons folder rest ih =>
    rw [writeFolders]
    split
    next => exact hs
    next tasks _ =>
      have hwalk : P ((l.writeTasks m count tasks s).getD (.ok count, s)).2 := by
        cases h : l.writeTasks m count tasks s with
        | none => exact hs
        | some r => exact Lister.writeTasks_keeps hw h hs
      split
      next hr =>
        rw [hr] at hwalk
        exact hwalk
      next hr =>
        rw [hr] at hwalk
        exact ih hwalk

/-- What every writing and flushing keeps is kept by a whole listing, also if it fails halfway. -/
theorem Listing.write_keeps (hw : ∀ bytes s, P s → P (m.write bytes s).2) (hf : ∀ s, P s → P (m.flush s).2)
    {folders : List Path} {s : σ} (hs : P s) : P (write m l folders s).2 := by
  have hheader := writeOptional_keeps hw l.options.header hs
  rw [write]
  split
  next he =>
    rw [he] at hheader
    exact hheader
  next he =>
    rw [he] at hheader
    have hfolders : P (writeFolders m l 0 folders _).2 := writeFolders_keeps hw hheader
    split
    next he =>
      rw [he] at hfolders
      exact hfolders
    next he =>
      rw [he] at hfolders
      have hfooter := writeOptional_keeps hw l.options.footer hfolders
      split
      next he =>
        rw [he] at hfooter
        exact hfooter
      next he =>
        rw [he] at hfooter
        have hflushed := hf _ hfooter
        split
        next he =>
          rw [he] at hflushed
          exact hflushed
        next he =>
          rw [he] at hflushed
          exact hflushed

end

theorem Item.Within.base_eq {d : Disk} {i j : Item} (h : i.Within d j) : j.base = i.base := by
  induction h with
  | self => rfl
  | entry _ hk ih =>
    obtain ⟨n, -, rfl⟩ := Item.exists_of_mem_children hk
    exact ih

/-- Nothing below the base, links followed, is the file or the folder that it is in. -/
def Volume.SparesTree (v : Volume) (place : List String) (base : Path) : Prop :=
  ∀ i, (Item.root base).Within v.disk i → v.Spares place i.abspath

/-- What comes of writing bytes from a state on: all of them are put behind the text, or a beginning of them and
then the writing fails. It does not fail where the system takes everything. -/
inductive Medium.Output.Puts (v : Volume) (place : List String) (former text bytes : List UInt8) (s : Output)
    {α : Type} : Except ListError α × Output → Prop
  | all {a : α} {s' : Output} (h : s'.Holds v place former (text ++ bytes))
      (ht : s.volume.TakesAll → s'.volume.TakesAll) : Puts v place former text bytes s (.ok a, s')
  | torn {cause : SystemError} {taken : List UInt8} {s' : Output} (hp : taken <+: bytes)
      (h : s'.Holds v place former (text ++ taken)) (ht : ¬s.volume.TakesAll) :
      Puts v place former text bytes s (.error (.writeFailed cause), s')

section
variable {v : Volume} {place : List String} {former text bytes more : List UInt8} {s s' : Output} {α : Type}
  {r : Except ListError α × Output}

namespace Medium.Output.Puts

theorem nothing (h : s.Holds v place former text) (a : α) : s.Puts v place former text [] (.ok a, s) := by
  refine .all ?_ id
  rw [List.append_nil]
  exact h

theorem holds {a : α} (h : s.Puts v place former text bytes (.ok a, s')) :
    s'.Holds v place former (text ++ bytes) := by
  cases h with
  | all h => exact h

theorem behind (ht : s.volume.TakesAll → s'.volume.TakesAll)
    (hr : s'.Puts v place former (text ++ bytes) more r) : s.Puts v place former text (bytes ++ more) r := by
  cases hr with
  | all hs ht' =>
    rw [List.append_assoc] at hs
    exact .all hs fun h => ht' (ht h)
  | torn hp hs ht' =>
    rw [List.append_assoc] at hs
    exact .torn ((List.prefix_append_right_inj bytes).mpr hp) hs fun h => ht' (ht h)

end Medium.Output.Puts

theorem Listing.writeText_puts (hs : s.Holds v place former text) (line : String) :
    s.Puts v place former text (Text.encode line) (writeText output line s) := by
  obtain ⟨taken, hp, hholds, hall⟩ := hs.write (Text.encode line)
  have htakes := fun h : s.volume.TakesAll => Output.write_of_takesAll h (Text.encode line)
  rw [writeText]
  generalize output.write (Text.encode line) s = r at hholds hall htakes ⊢
  obtain ⟨result, s'⟩ := r
  cases result with
  | ok =>
    obtain rfl := hall rfl
    exact .all hholds fun h => (htakes h).2
  | error e => exact .torn hp hholds fun h => nomatch (htakes h).1

theorem Listing.writeOptional_puts (hs : s.Holds v place former text) (line : String) :
    s.Puts v place former text (Text.encode line) (writeOptional output line s) := by
  rw [writeOptional]
  split
  next he =>
    rw [he, Text.encode_empty]
    exact .nothing hs ()
  next => exact writeText_puts hs line

end

section
variable {v : Volume} {place : List String} {former text : List UInt8} {s : Output} {l : Lister} {base : Path}

/-- As long as only the file is written to, steps are the same as before. -/
theorem Medium.Output.Holds.sameStep (h : s.Holds v place former text) (hb : base.isAbsolute = true)
    (hout : v.SparesTree place base) {task : Walk.Task} {rest : List Walk.Task}
    (ht : Walk.AllWithin v.disk (.root base) (task :: rest)) :
    Walk.SameStep v.disk (output.disk s) l task rest := by
  have hwithin := ht task List.mem_cons_self
  have ha : task.item.abspath.isAbsolute = true := Item.isAbsolute_abspath (by rw [hwithin.base_eq]; exact hb)
  exact Walk.sameStep_of_alike (h.apart.alikeAt ha (hout _ hwithin)) h.apart.isFolder rest

/-- Tasks that are done without a failure write the lines of what they give on the volume as it was before. -/
theorem Lister.writeTasks_output (hb : base.isAbsolute = true) (hout : v.SparesTree place base)
    {count n : Nat} {tasks : List Walk.Task} {s' : Output} (h : l.writeTasks output count tasks s = some (.ok n, s'))
    (ht : Walk.AllWithin v.disk (.root base) tasks) (hs : s.Holds v place former text) :
    ∃ records, l.run v.disk tasks = some (records.map .ok) ∧
      s'.Holds v place former (text ++ l.bytes records) := by
  refine Lister.writeTasks.partial_correctness l output (fun _ tasks s r => ∀ text n, r.1 = .ok n →
    Walk.AllWithin v.disk (.root base) tasks → s.Holds v place former text →
    ∃ records, l.run v.disk tasks = some (records.map .ok) ∧
      r.2.Holds v place former (text ++ l.bytes records)) ?_ count tasks s (.ok n, s') h text n rfl ht hs
  rintro writeTasks ih count (_ | ⟨task, rest⟩) s r hr text n hn ht hs
  · obtain rfl := Option.some.inj hr
    refine ⟨[], ?_, ?_⟩
    · rw [Lister.run]
      rfl
    · rw [show l.bytes [] = [] from rfl, List.append_nil]
      exact hs
  · have hsame : Walk.SameStep v.disk (output.disk s) l task rest := hs.sameStep hb hout ht
    have hwithin := ht.perform (l := l)
    rw [← hsame.1] at hwithin
    rw [Walk.run_cons, ← hsame.1]
    simp only at hr
    split at hr
    next hp =>
      obtain ⟨records, hrun, hholds⟩ := ih _ _ _ _ hr text n hn hwithin hs
      refine ⟨records, ?_, hholds⟩
      rw [hrun, hsame.silent hp]
      rfl
    next =>
      obtain rfl := Option.some.inj hr
      cases hn
    next record hp =>
      have hline := Listing.writeText_puts hs (l.line record)
      split at hr
      next =>
        obtain rfl := Option.some.inj hr
        cases hn
      next hok =>
        rw [hok] at hline
        obtain ⟨records, hrun, hholds⟩ := ih _ _ _ _ hr _ n hn hwithin hline.holds
        refine ⟨record :: records, ?_, ?_⟩
        · rw [hrun, hsame.record hp]
          rfl
        · rw [List.append_assoc] at hholds
          exact hholds

/-- Writes the lines of the records; the number of lines, `count` of them before. -/
def Listing.writeLines {σ : Type} (m : Medium σ) (l : Lister) : (count : Nat) → List Record → σ →
    Except ListError Nat × σ
  | count, [], s => (.ok count, s)
  | count, r :: rest, s =>
    match writeText m (l.line r) s with
    | (.error e, s) => (.error e, s)
    | (.ok (), s) => writeLines m l (count + 1) rest s

/-- Tasks that come to an end on the volume as it was before come to an end while they are written. If they do
not fail there, what is written are the lines of what they give. -/
theorem Lister.exists_writeTasks (hb : base.isAbsolute = true) (hout : v.SparesTree place base)
    {tasks : List Walk.Task} {os : List Signal.Outcome} (h : l.run v.disk tasks = some os)
    (ht : Walk.AllWithin v.disk (.root base) tasks) (hs : s.Holds v place former text) (count : Nat) :
    ∃ r, l.writeTasks output count tasks s = some r ∧
      ∀ records : List Record, os = records.map .ok → r = Listing.writeLines output l count records s := by
  refine Lister.run.partial_correctness l v.disk (fun tasks os => ∀ text s count,
    Walk.AllWithin v.disk (.root base) tasks → s.Holds v place former text →
    ∃ r, l.writeTasks output count tasks s = some r ∧ ∀ records : List Record, os = records.map .ok →
      r = Listing.writeLines output l count records s) ?_ tasks os h text s count ht hs
  rintro run ih (_ | ⟨task, rest⟩) os hr text s count ht hs
  · obtain rfl := Option.some.inj hr
    rw [Lister.writeTasks]
    refine ⟨_, rfl, fun records hrecords => ?_⟩
    obtain rfl := List.map_eq_nil_iff.mp hrecords.symm
    rfl
  · have hsame : Walk.SameStep v.disk (output.disk s) l task rest := hs.sameStep hb hout ht
    have hwithin := ht.perform (l := l)
    obtain ⟨later, hlater, hos⟩ : ∃ later, run (Walk.perform v.disk l task rest).2 = some later ∧
        os = (Walk.perform v.disk l task rest).1.toList ++ later := by
      simp only at hr
      split at hr
      next outcome ho =>
        obtain ⟨later, hlater, he⟩ := Option.bind_eq_some_iff.mp hr
        refine ⟨later, hlater, ?_⟩
        rw [ho]
        exact (Option.some.inj he).symm
      next ho =>
        refine ⟨os, hr, ?_⟩
        rw [ho]
        rfl
    rw [Lister.writeTasks]
    simp only [hsame.1]
    split
    next hp =>
      rw [hsame.silent hp] at hos
      rw [hos]
      exact ih _ _ hlater text s count hwithin hs
    next e hp =>
      obtain ⟨e', he'⟩ := hsame.failure hp
      refine ⟨_, rfl, ?_⟩
      intro records hrecords
      rw [hos, he'] at hrecords
      obtain ⟨_, _, _, hfirst, _⟩ := List.map_eq_cons_iff.mp hrecords.symm
      cases hfirst
    next record hp =>
      rw [hsame.record hp] at hos
      have hsplit : ∀ records : List Record, os = records.map .ok →
          ∃ others, records = record :: others ∧ later = others.map .ok := by
        intro records hrecords
        rw [hos] at hrecords
        obtain ⟨record', others, rfl, hfirst, hothers⟩ := List.map_eq_cons_iff.mp hrecords.symm
        obtain rfl := Except.ok.inj hfirst
        exact ⟨others, rfl, hothers.symm⟩
      obtain ⟨taken, -, hholds, -⟩ := hs.write (Text.encode (l.line record))
      obtain ⟨⟨result, s₁⟩, hw⟩ : ∃ r, Listing.writeText output (l.line record) s = r := ⟨_, rfl⟩
      have hs₁ : s₁.Holds v place former (text ++ taken) := by
        rw [← show _ = s₁ from congrArg Prod.snd hw]
        exact hholds
      simp only [hw]
      cases result with
      | error e =>
        refine ⟨_, rfl, fun records hrecords => ?_⟩
        obtain ⟨others, rfl, -⟩ := hsplit records hrecords
        rw [Listing.writeLines, hw]
      | ok =>
        obtain ⟨r, hwrite, hlines⟩ := ih _ _ hlater _ _ (count + 1) hwithin hs₁
        refine ⟨r, hwrite, fun records hrecords => ?_⟩
        obtain ⟨others, rfl, hothers⟩ := hsplit records hrecords
        rw [Listing.writeLines, hw]
        exact hlines others hothers

theorem Listing.writeLines_puts (hs : s.Holds v place former text) (records : List Record) (count : Nat) :
    s.Puts v place former text (l.bytes records) (writeLines output l count records s) := by
  induction records generalizing s text count with
  | nil => exact .nothing hs count
  | cons record rest ih =>
    have hline := writeText_puts hs (l.line record)
    have hbytes : l.bytes (record :: rest) = Text.encode (l.line record) ++ l.bytes rest := rfl
    rw [writeLines, hbytes]
    generalize writeText output (l.line record) s = r at hline ⊢
    cases hline with
    | all hs₁ htakes => exact .behind htakes (ih hs₁ (count + 1))
    | torn hp hs₁ htakes => exact .torn (hp.trans (List.prefix_append _ _)) hs₁ htakes

theorem Listing.writeLines_append {σ : Type} (m : Medium σ) (l : Lister) (count : Nat) (records others : List Record)
    (s : σ) : writeLines m l count (records ++ others) s
      = match writeLines m l count records s with
        | (.error e, s) => (.error e, s)
        | (.ok count, s) => writeLines m l count others s := by
  induction records generalizing count s with
  | nil => rfl
  | cons r rest ih =>
    rw [List.cons_append, writeLines, writeLines]
    split
    · rfl
    · exact ih _ _

theorem Medium.Output.Holds.start (h : s.Holds v place former text) (folder : Path) :
    Walk.start (output.disk s) folder = Walk.start v.disk folder := by
  have hfolder : (output.disk s).isFolder folder = v.disk.isFolder folder := h.apart.isFolder folder
  have hcwd : (output.disk s).cwd = v.disk.cwd := congrArg Volume.pathOf h.apart.cwd
  rw [Walk.start, Walk.start, hfolder, hcwd]

theorem Walk.start_eq_ok {d : Disk} {folder : Path} {tasks : List Task} (h : start d folder = .ok tasks) :
    ∃ base, folder.absolute? d.cwd = some base ∧ tasks = [.enter (.root base)] := by
  rw [start] at h
  split at h
  next =>
    split at h
    next base hb => exact ⟨base, hb, (Except.ok.inj h).symm⟩
    next => cases h
  next => cases h

end

def Volume.LiesOutside (v : Volume) (place : List String) (folder : Path) : Prop :=
  ∀ base, folder.absolute? v.disk.cwd = some base → v.SparesTree place base

/-- What a listing consists of: the header, the lines of all walks, and the footer. -/
def Lister.listingOf (l : Lister) (walks : List (List Record)) : List UInt8 :=
  Text.encode l.options.header ++ l.bytes walks.flatten ++ Text.encode l.options.footer

/-- What the walks of the folders give, none of which fails. -/
def Lister.Walks (l : Lister) (d : Disk) (folders : List Path) (walks : List (List Record)) : Prop :=
  List.Forall₂ (fun folder records => l.walk d folder = .ok (records.map .ok)) folders walks

theorem Lister.Walks.unique {l : Lister} {d : Disk} {folders : List Path} {walks others : List (List Record)}
    (h : l.Walks d folders walks) (h' : l.Walks d folders others) : walks = others := by
  refine Relator.RightUnique.forall₂ ?_ h h'
  intro folder records records' hr hr'
  have hmap : records.map Except.ok = records'.map Except.ok := Except.ok.inj (hr.symm.trans hr')
  exact List.map_injective_iff.mpr (fun _ _ => Except.ok.inj) hmap

section
variable {v : Volume} {place : List String} {former text : List UInt8} {s s' : Output} {l : Lister} {n : Nat}
  {folders : List Path}

theorem Lister.writeWalk_output {folder : Path} {tasks : List Walk.Task} {count : Nat}
    (hout : v.LiesOutside place folder) (hstart : Walk.start v.disk folder = .ok tasks)
    (h : (l.writeTasks output count tasks s).getD (.ok count, s) = (.ok n, s'))
    (hs : s.Holds v place former text) :
    ∃ records, l.walk v.disk folder = .ok (records.map .ok) ∧
      s'.Holds v place former (text ++ l.bytes records) := by
  obtain ⟨base, hbase, rfl⟩ := Walk.start_eq_ok hstart
  have hb : base.isAbsolute = true := Path.isAbsolute_of_absolute? (Volume.isAbsolute_pathOf v.cwd) hbase
  have hwithin : Walk.AllWithin v.disk (.root base) [.enter (.root base)] :=
    List.forall_mem_singleton.mpr .self
  have hwalk : l.walk v.disk folder = .ok ((l.run v.disk [.enter (.root base)]).getD []) := by
    rw [Lister.walk, hstart]
    rfl
  rw [hwalk]
  cases hw : l.writeTasks output count [.enter (.root base)] s with
  | some r =>
    rw [hw, Option.getD_some] at h
    rw [h] at hw
    obtain ⟨records, hrun, hholds⟩ := Lister.writeTasks_output hb (hout base hbase) hw hwithin hs
    exact ⟨records, by rw [hrun]; rfl, hholds⟩
  | none =>
    have hrun : l.run v.disk [.enter (.root base)] = none := by
      rw [Option.eq_none_iff_forall_ne_some]
      intro os hos
      obtain ⟨r, hr, -⟩ := Lister.exists_writeTasks hb (hout base hbase) hos hwithin hs count
      rw [hw] at hr
      cases hr
    rw [hw, Option.getD_none] at h
    obtain ⟨-, rfl⟩ := Prod.mk.inj h
    refine ⟨[], by rw [hrun]; rfl, ?_⟩
    rw [show l.bytes [] = [] from rfl, List.append_nil]
    exact hs

theorem Listing.writeFolders_output (hout : ∀ folder ∈ folders, v.LiesOutside place folder) {count : Nat}
    (h : writeFolders output l count folders s = (.ok n, s')) (hs : s.Holds v place former text) :
    ∃ walks, l.Walks v.disk folders walks ∧ s'.Holds v place former (text ++ l.bytes walks.flatten) := by
  induction folders generalizing count s text with
  | nil =>
    obtain ⟨-, rfl⟩ := Prod.mk.inj h
    refine ⟨[], .nil, ?_⟩
    rw [show l.bytes [].flatten = [] from rfl, List.append_nil]
    exact hs
  | cons folder rest ih =>
    obtain ⟨hfolder, hrest⟩ := List.forall_mem_cons.mp hout
    rw [writeFolders, hs.start] at h
    split at h
    next => cases h
    next tasks hstart =>
      split at h
      next => cases h
      next count₁ s₁ hw =>
        obtain ⟨records, hwalk, hs₁⟩ := Lister.writeWalk_output hfolder hstart hw hs
        obtain ⟨walks, hwalks, hs'⟩ := ih hrest h hs₁
        refine ⟨records :: walks, .cons hwalk hwalks, ?_⟩
        rw [List.flatten_cons, Lister.bytes_append, ← List.append_assoc]
        exact hs'

theorem Listing.writeFolders_eq (hout : ∀ folder ∈ folders, v.LiesOutside place folder)
    {walks : List (List Record)} (hw : List.Forall₂ (Walked l v.disk) folders walks)
    (hs : s.Holds v place former text) (count : Nat) :
    writeFolders output l count folders s = writeLines output l count walks.flatten s := by
  induction hw generalizing count s text with
  | nil => rfl
  | @cons folder records rest walks hwalk _ ih =>
    obtain ⟨hfolder, hrest⟩ := List.forall_mem_cons.mp hout
    obtain ⟨tasks, hstart, hrun⟩ := hwalk
    obtain ⟨base, hbase, rfl⟩ := Walk.start_eq_ok hstart
    have hb : base.isAbsolute = true := Path.isAbsolute_of_absolute? (Volume.isAbsolute_pathOf v.cwd) hbase
    obtain ⟨r, hwrite, hlines⟩ := Lister.exists_writeTasks hb (hfolder base hbase) hrun
      (List.forall_mem_singleton.mpr .self) hs count
    obtain rfl := hlines records rfl
    have hputs := writeLines_puts (l := l) hs records count
    rw [writeFolders, hs.start, hstart, List.flatten_cons, writeLines_append]
    simp only [hwrite, Option.getD_some]
    generalize writeLines output l count records s = r at hputs ⊢
    cases hputs with
    | all hs₁ => exact ih hrest hs₁ _
    | torn => rfl

/-- A listing that is written without a failure is in the file in the end. -/
theorem Listing.write_output (hout : ∀ folder ∈ folders, v.LiesOutside place folder)
    (h : write output l folders s = (.ok n, s')) (hs : s.Holds v place former text) :
    ∃ walks, l.Walks v.disk folders walks ∧ s'.Holds v place former (text ++ l.listingOf walks) ∧
      s'.waiting = [] := by
  have hheader := writeOptional_puts hs l.options.header
  rw [write] at h
  split at h
  next => cases h
  next s₁ he =>
    rw [he] at hheader
    have hs₁ := hheader.holds
    split at h
    next => cases h
    next count s₂ hfolders =>
      obtain ⟨walks, hwalks, hs₂⟩ := writeFolders_output hout hfolders hs₁
      have hfooter := writeOptional_puts hs₂ l.options.footer
      split at h
      next => cases h
      next s₃ he =>
        rw [he] at hfooter
        obtain ⟨hflushed, hwaiting⟩ := hfooter.holds.settle
        split at h
        next => cases h
        next s₄ hflush =>
          have hsettle : s₃.settle = (.ok (), s₄) := hflush
          rw [hsettle] at hflushed hwaiting
          obtain ⟨-, rfl⟩ := Prod.mk.inj h
          refine ⟨walks, hwalks, ?_, hwaiting rfl⟩
          rw [Lister.listingOf, ← List.append_assoc, ← List.append_assoc]
          exact hflushed

/-- A listing of walks that do not fail is written as far as the system takes it. -/
theorem Listing.write_puts (hout : ∀ folder ∈ folders, v.LiesOutside place folder)
    {walks : List (List Record)} (hw : List.Forall₂ (Walked l v.disk) folders walks)
    (hs : s.Holds v place former text) :
    s.Puts v place former text (l.listingOf walks) (write output l folders s) := by
  have hheader := writeOptional_puts hs l.options.header
  rw [write, Lister.listingOf, List.append_assoc]
  generalize writeOptional output l.options.header s = r at hheader ⊢
  cases hheader with
  | torn hp hs₁ htakes => exact .torn (hp.trans (List.prefix_append _ _)) hs₁ htakes
  | @all _ s₁ hs₁ htakes =>
    refine .behind htakes ?_
    have hlines := writeLines_puts (l := l) hs₁ walks.flatten 0
    simp only [writeFolders_eq hout hw hs₁]
    generalize writeLines output l 0 walks.flatten s₁ = r at hlines ⊢
    cases hlines with
    | torn hp hs₂ htakes => exact .torn (hp.trans (List.prefix_append _ _)) hs₂ htakes
    | @all n s₂ hs₂ htakes =>
      refine .behind htakes ?_
      have hfooter := writeOptional_puts hs₂ l.options.footer
      simp only
      generalize writeOptional output l.options.footer s₂ = r at hfooter ⊢
      cases hfooter with
      | torn hp hs₃ htakes => exact .torn hp hs₃ htakes
      | @all _ s₃ hs₃ htakes =>
        have hsettle := hs₃.settle.1
        have htaken := fun h : s₃.volume.TakesAll => Output.settle_of_takesAll h
        simp only [output]
        generalize s₃.settle = r at hsettle htaken ⊢
        obtain ⟨result, s₄⟩ := r
        cases result with
        | ok => exact .all hsettle fun h => (htaken (htakes h)).2
        | error e => exact .torn List.prefix_rfl hsettle fun h => nomatch (htaken (htakes h)).1

end

namespace OutputFile

variable {v opened : Volume} {place : List String} {former : List UInt8} {l : Lister} {folders : List Path}

theorem holds_opened (hapart : v.SameApart place opened) (hformer : opened.contentAt? place = some former) :
    Output.Holds v place former [] { volume := opened, place } :=
  ⟨rfl, hapart, [], by rw [List.append_nil]; exact hformer, rfl⟩

/-- What a file held when it was opened stays in front of what is written, whether a listing fails or not. -/
theorem write_keeps (hapart : v.SameApart place opened) (hformer : opened.contentAt? place = some former) :
    v.SameApart place (write opened l place folders).2 ∧
      ∃ more, (write opened l place folders).2.contentAt? place = some (former ++ more) := by
  obtain ⟨text, htext⟩ : ∃ text, Output.Holds v place former text
      (Listing.write output l folders { volume := opened, place }).2 := by
    refine Listing.write_keeps (P := fun s : Output => ∃ text, s.Holds v place former text) ?_ ?_
      ⟨[], holds_opened hapart hformer⟩
    · rintro bytes s ⟨text, hs⟩
      obtain ⟨taken, -, hs', -⟩ := hs.write bytes
      exact ⟨text ++ taken, hs'⟩
    · rintro s ⟨text, hs⟩
      exact ⟨text, hs.settle.1⟩
  obtain ⟨more, -, hmore, -⟩ := htext.settle.1.contentAt?
  exact ⟨htext.settle.1.apart, more, hmore⟩

/-- A listing that does not fail is behind what the file held when it was opened. -/
theorem write_eq_ok (hapart : v.SameApart place opened) (hformer : opened.contentAt? place = some former)
    (hout : ∀ folder ∈ folders, v.LiesOutside place folder) {n : Nat} {w : Volume}
    (h : write opened l place folders = (.ok n, w)) :
    ∃ walks, l.Walks v.disk folders walks ∧
      w.contentAt? place = some (former ++ l.listingOf walks) := by
  obtain ⟨⟨result, s⟩, hw⟩ : ∃ r, Listing.write output l folders { volume := opened, place } = r := ⟨_, rfl⟩
  rw [write, hw] at h
  obtain ⟨rfl, rfl⟩ := Prod.mk.inj h
  obtain ⟨walks, hwalks, hs, hwaiting⟩ := Listing.write_output hout hw (holds_opened hapart hformer)
  obtain ⟨more, -, hcontent, hall⟩ := hs.contentAt?
  obtain rfl := hall hwaiting
  rw [Output.settle_of_waiting hwaiting]
  exact ⟨walks, hwalks, hcontent⟩

/-- A listing of walks that do not fail can only fail in writing, and only if the system does not take
everything. A beginning of it is in the file in any case. -/
theorem write_of_walked (hapart : v.SameApart place opened) (hformer : opened.contentAt? place = some former)
    (hout : ∀ folder ∈ folders, v.LiesOutside place folder) {walks : List (List Record)}
    (hw : List.Forall₂ (Listing.Walked l v.disk) folders walks) :
    ((∃ n, (write opened l place folders).1 = .ok n) ∨
      ¬opened.TakesAll ∧ ∃ cause, (write opened l place folders).1 = .error (.writeFailed cause)) ∧
      ∃ more, more <+: l.listingOf walks ∧
        (write opened l place folders).2.contentAt? place = some (former ++ more) := by
  have hputs := Listing.write_puts hout hw (holds_opened hapart hformer)
  rw [write]
  generalize Listing.write output l folders { volume := opened, place } = r at hputs ⊢
  cases hputs with
  | all hs =>
    obtain ⟨more, hmore, hcontent, -⟩ := hs.settle.1.contentAt?
    exact ⟨.inl ⟨_, rfl⟩, more, hmore, hcontent⟩
  | torn hp hs htakes =>
    obtain ⟨more, hmore, hcontent, -⟩ := hs.settle.1.contentAt?
    exact ⟨.inr ⟨htakes, _, rfl⟩, more, hmore.trans hp, hcontent⟩

end OutputFile

end TreeListing
