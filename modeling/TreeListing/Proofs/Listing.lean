import TreeListing.Listing
import TreeListing.Proofs.Text
import TreeListing.Proofs.Walk

/-!
Writing into a memory. What a walk gives is written as it comes, so the bytes of a listing are those
of the lines of all records, folder by folder.
-/
namespace TreeListing

/-- The bytes of the lines of the records. -/
def Lister.bytes (l : Lister) (records : List Record) : List UInt8 :=
  (records.map l.line).flatMap Text.encode

@[simp]
theorem Lister.bytes_append (l : Lister) (records others : List Record) :
    l.bytes (records ++ others) = l.bytes records ++ l.bytes others := by
  simp [bytes]

namespace Listing

variable {l : Lister} {d : Disk}

theorem append_append (written : Array UInt8) (bytes others : List UInt8) :
    written ++ bytes ++ others = written ++ (bytes ++ others) :=
  Array.toList_inj.mp (by simp)

theorem append_nil (written : Array UInt8) : written ++ ([] : List UInt8) = written :=
  Array.toList_inj.mp (by simp)

theorem writeTasks_silent {task : Walk.Task} {rest next : List Walk.Task}
    (h : Walk.perform d l task rest = (none, next)) (count : Nat) (written : Array UInt8) :
    l.writeTasks .memory count (task :: rest) ⟨d, written⟩ = l.writeTasks .memory count next ⟨d, written⟩ := by
  have hp : Walk.perform (Medium.memory.disk ⟨d, written⟩) l task rest = (none, next) := h
  rw [Lister.writeTasks]
  simp only [hp]

theorem writeTasks_record {task : Walk.Task} {rest next : List Walk.Task} {r : Record}
    (h : Walk.perform d l task rest = (some (.ok r), next)) (count : Nat) (written : Array UInt8) :
    l.writeTasks .memory count (task :: rest) ⟨d, written⟩
      = l.writeTasks .memory (count + 1) next ⟨d, written ++ l.bytes [r]⟩ := by
  have hp : Walk.perform (Medium.memory.disk ⟨d, written⟩) l task rest = (some (.ok r), next) := h
  have hb : l.bytes [r] = Text.encode (l.line r) := by simp [Lister.bytes]
  rw [Lister.writeTasks, hb]
  simp only [hp]
  rfl

/-- The tasks of a walk without failures write the lines of its records. -/
theorem writeTasks_memory {tasks : List Walk.Task} {records : List Record}
    (h : l.run d tasks = some (records.map .ok)) (count : Nat) (written : Array UInt8) :
    l.writeTasks .memory count tasks ⟨d, written⟩
      = some (.ok (count + records.length), ⟨d, written ++ l.bytes records⟩) := by
  have hall : ∀ tasks outcomes, l.run d tasks = some outcomes → ∀ records : List Record,
      outcomes = records.map .ok → ∀ count written, l.writeTasks .memory count tasks ⟨d, written⟩
        = some (.ok (count + records.length), ⟨d, written ++ l.bytes records⟩) := by
    refine Lister.run.partial_correctness l d _ ?_
    rintro run ih (_ | ⟨task, rest⟩) outcomes hr records rfl count written
    · obtain rfl : records = [] := by simpa using hr
      have hw : written ++ l.bytes [] = written := append_nil written
      rw [Lister.writeTasks, hw]
      rfl
    · obtain ⟨⟨outcome?, next⟩, hp⟩ : ∃ p, Walk.perform d l task rest = p := ⟨_, rfl⟩
      simp only [hp] at hr
      cases outcome? with
      | none =>
        rw [writeTasks_silent hp]
        exact ih next _ hr records rfl count written
      | some outcome =>
        obtain ⟨others, ho, he⟩ := Option.bind_eq_some_iff.mp hr
        cases records with
        | nil => cases he
        | cons r records =>
          obtain ⟨rfl, rfl⟩ := List.cons.inj (Option.some.inj he)
          rw [writeTasks_record hp, ih next _ ho records rfl, append_append, ← Lister.bytes_append,
            List.length_cons, Nat.add_assoc, Nat.add_comm 1]
          rfl
  exact hall tasks _ h records rfl count written

/-- The walk of the folder comes to an end, and gives the records without a failure. -/
def Walked (l : Lister) (d : Disk) (folder : Path) (records : List Record) : Prop :=
  ∃ tasks, Walk.start d folder = .ok tasks ∧ l.run d tasks = some (records.map .ok)

theorem Walked.walk_eq {folder : Path} {records : List Record} (h : Walked l d folder records) :
    l.walk d folder = .ok (records.map .ok) := by
  obtain ⟨tasks, hstart, hr⟩ := h
  rw [Lister.walk, hstart]
  simp only [Except.map, hr, Option.getD_some]

/-- A walk over a finite tree comes to an end. -/
theorem walked_of_walk {folder base : Path} {f : Forest} {records : List Record}
    (hb : folder.absolute? d.cwd = some base) (hs : f.Shows d l base [] (l.entries d (.root base)))
    (hw : l.walk d folder = .ok (records.map .ok)) : Walked l d folder records := by
  have hd := isFolder_of_walk hw
  rw [walk_eq hd hb hs] at hw
  refine ⟨[.enter (.root base)], by rw [Walk.start, if_pos hd, hb], ?_⟩
  rw [Walk.run_root hs, Except.ok.inj hw]

theorem writeFolders_memory {folders : List Path} {walks : List (List Record)}
    (h : List.Forall₂ (Walked l d) folders walks) (count : Nat) (written : Array UInt8) :
    writeFolders .memory l count folders ⟨d, written⟩
      = (.ok (count + walks.flatten.length), ⟨d, written ++ l.bytes walks.flatten⟩) := by
  induction h generalizing count written with
  | nil =>
    have hw : written ++ l.bytes [] = written := append_nil written
    rw [writeFolders, List.flatten_nil, hw]
    rfl
  | @cons folder records folders walks hwalk _ ih =>
    obtain ⟨tasks, hs, hr⟩ := hwalk
    have hstart : Walk.start (Medium.memory.disk ⟨d, written⟩) folder = .ok tasks := hs
    rw [writeFolders, hstart]
    simp only [writeTasks_memory hr, Option.getD_some]
    rw [ih, append_append, ← Lister.bytes_append, List.flatten_cons, List.length_append, Nat.add_assoc]

theorem writeOptional_memory (text : String) (written : Array UInt8) :
    writeOptional .memory text ⟨d, written⟩ = (.ok (), ⟨d, written ++ Text.encode text⟩) := by
  rw [writeOptional]
  split
  next he =>
    rw [he, Text.encode_empty, append_nil]
  next => rfl

/-- The bytes are those of the header, of the lines of all walks, and of the footer. -/
theorem write_memory {folders : List Path} {walks : List (List Record)}
    (h : List.Forall₂ (Walked l d) folders walks) :
    ∃ s, write .memory l folders ⟨d, #[]⟩ = (.ok walks.flatten.length, s) ∧
      s.written.toList
        = Text.encode l.options.header ++ l.bytes walks.flatten ++ Text.encode l.options.footer := by
  refine ⟨⟨d, #[] ++ (Text.encode l.options.header ++ l.bytes walks.flatten ++ Text.encode l.options.footer)⟩,
    ?_, Array.toList_appendList.trans (List.nil_append _)⟩
  rw [write, writeOptional_memory, ← append_append, ← append_append]
  simp only [writeFolders_memory h, writeOptional_memory, Nat.zero_add]
  rfl

end Listing

end TreeListing
