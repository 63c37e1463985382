import EosShard.Found.Ledger
import EosShard.Found.Machine
import EosShard.ShardFile
import EosShard.V1.GVariant
import EosShard.V2.Traversal

/-!
# The descriptor of a shard file

Who closes what in the life of an `EosShardShardFile`: it is constructed, `init` runs any number of
times (the sync and the async path run the same function), and it is finalized. The rest of the
program opens and closes its own descriptors in between, also while `init` is at work on another
thread.

* `Process`: the open descriptors of the process with their owners, the object, and the ledger of the
  descriptors that the object has got from `open` and passed to `close`.
* What the object holds and what its field says is determined by how its attempts to open the file
  ended (`HoldsAfter`); one step keeps that (`HoldsAfter.step`).
* `closesItsOwn_iff`: **when the ledger is balanced at the end**. The field is zero before the first
  `open`, `-1` after a failed one, and keeps its number when `init` has closed it; `finalize` closes
  what it finds there.
-/

namespace EosShard

open EosShard.Found

/-! ## The object -/

/-- The fields that `init` and `finalize` work on. Source: `eos-shard-shard-file.c`,
`struct _EosShardShardFile`. -/
structure EosShardShardFile where
  /-- The path, `none` for `NULL`. It is a construct-only property. -/
  path : Option String
  /-- The descriptor. -/
  fd : ℤ
  /-- The reader of the version, `none` for `NULL`. -/
  impl : Option ShardFileImpl
  deriving DecidableEq

/-- A new object: GObject fills the fields with zeros. -/
def EosShardShardFile.new (path : Option String) : EosShardShardFile := ⟨path, 0, none⟩

/-- What `open` answers. -/
inductive OpenAnswer
  /-- A descriptor. -/
  | descriptor (n : ℕ)
  /-- `-1` with `errno` set to `ENOENT`. -/
  | notFound
  /-- `-1` with another `errno`, given by its message. -/
  | failed (message : String)
  deriving DecidableEq

/-- `init` up to the version check; it goes on if there is no error.
Source: `eos-shard-shard-file.c`, `eos_shard_shard_file_init_internal`. -/
def initOpen (file : EosShardShardFile) (answer : OpenAnswer) : EosShardShardFile × Option GError :=
  match file.path with
  | none => (file, some ⟨.shardFilePathNotSet, "No path was given."⟩)
  | some path =>
      match answer with
      | .descriptor n => ({ file with fd := n }, none)
      | .notFound =>
          ({ file with fd := -1 }, some ⟨.shardFileNotFound, "No file was found at path " ++ path⟩)
      | .failed message =>
          ({ file with fd := -1 },
            some ⟨.shardFileCouldNotOpen, "Could not open file " ++ path ++ ": " ++ message⟩)

/-- `init` from the version check on; it closes the descriptor if there is an error. `none` if the
process does not survive.
Source: `eos-shard-shard-file.c`, `eos_shard_shard_file_init_internal`. -/
def initDetect (gv : V1.GVariantFormat) (heap : Heap) (file : EosShardShardFile) (contents : Bytes) :
    Option (EosShardShardFile × Option GError) :=
  match detectVersion gv heap contents with
  | .ok impl => some ({ file with impl := some impl }, none)
  | .error (.gerror e) => some ({ file with impl := none }, some e)
  | .error .abort => none

/-! ## The process -/

/-- Who has opened a descriptor. -/
inductive Owner
  | shardFile
  | program
  deriving DecidableEq

/-- What the object is doing. -/
inductive Phase
  /-- Between two calls. -/
  | idle
  /-- In `init`, between `open` and the version check. -/
  | detecting
  | finalized
  deriving DecidableEq

/-- The process, as far as the object is concerned. -/
structure Process where
  /-- The open descriptors. -/
  table : ℕ → Option Owner
  file : EosShardShardFile
  phase : Phase
  /-- What the object has got from `open` and passed to `close`. -/
  ledger : List (LedgerEvent ℕ)
  /-- The errors of the calls of `init` so far, `none` for success. -/
  results : List (Option GError)

/-- A process with a new object. -/
def Process.constructed (table : ℕ → Option Owner) (path : Option String) : Process :=
  ⟨table, .new path, .idle, [], []⟩

/-- `open` returns a descriptor to the object. -/
def Process.opened (p : Process) (n : ℕ) : Process :=
  { p with
    table := Function.update p.table n (some .shardFile)
    ledger := p.ledger ++ [.acquired n] }

/-- The object calls `close`. A negative number is no descriptor; any other one is free afterwards. -/
def Process.close (p : Process) (fd : ℤ) : Process :=
  if fd < 0 then p
  else
    { p with
      table := Function.update p.table fd.toNat none
      ledger := p.ledger ++ [.released fd.toNat] }

/-- What can happen in the process. -/
inductive Action
  /-- The rest of the program opens a descriptor. -/
  | programOpens (n : ℕ)
  /-- The rest of the program closes one of its descriptors. -/
  | programCloses (n : ℕ)
  /-- `init` is called and comes to `open`, which answers as given. -/
  | init (answer : OpenAnswer)
  /-- `init` checks the version of a file with the given contents. -/
  | detect (contents : Bytes)
  /-- The last reference is dropped. Source: `eos-shard-shard-file.c`,
  `eos_shard_shard_file_finalize`. -/
  | finalize

/-- One step. `open` returns a descriptor that is free; the rest of the program closes only what it
has opened. -/
def Process.step (gv : V1.GVariantFormat) (heap : Heap) (p : Process) : Action → Option Process
  | .programOpens n =>
      if p.table n = none then some { p with table := Function.update p.table n (some .program) }
      else none
  | .programCloses n =>
      if p.table n = some .program then some { p with table := Function.update p.table n none }
      else none
  | .init answer =>
      if p.phase = .idle then
        match initOpen p.file answer with
        | (file, some e) => some { p with file := file, results := p.results ++ [some e] }
        | (file, none) =>
            match answer with
            | .descriptor n =>
                if p.table n = none then some { p.opened n with file := file, phase := .detecting }
                else none
            | _ => none
      else none
  | .detect contents =>
      if p.phase = .detecting then
        match initDetect gv heap p.file contents with
        | none => none
        | some (file, none) =>
            some { p with file := file, phase := .idle, results := p.results ++ [none] }
        | some (file, some e) =>
            some { p.close p.file.fd with
              file := file, phase := .idle, results := p.results ++ [some e] }
      else none
  | .finalize =>
      if p.phase = .idle then
        some { p.close p.file.fd with file := ⟨none, p.file.fd, none⟩, phase := .finalized }
      else none

/-! ## The attempts to open the file -/

/-- How an attempt to open the file ended. -/
inductive Attempt
  /-- `open` failed. -/
  | notOpened
  /-- The file has been opened, and the version check failed. -/
  | turnedAway
  /-- `init` succeeded. -/
  | kept
  deriving DecidableEq

variable (gv : V1.GVariantFormat) (heap : Heap) (path : Option String)

/-- The attempt that ends with an action. `init` without a path makes none. -/
def attemptOf : Action → Option Attempt
  | .init .notFound => if path.isSome then some .notOpened else none
  | .init (.failed _) => if path.isSome then some .notOpened else none
  | .detect contents =>
      some (if (detectVersion gv heap contents).isOk then .kept else .turnedAway)
  | _ => none

/-- The attempts of a life. -/
def attempts (as : List Action) : List Attempt := as.filterMap (attemptOf gv heap path)

/-- The file has been tried, no attempt before the last has succeeded, and the version check of the
last one has not failed. -/
def Orderly (as : List Attempt) : Prop :=
  as ≠ [] ∧ Attempt.kept ∉ as.dropLast ∧ as.getLast? ≠ some .turnedAway

/-- Whether attempts are orderly can be decided. -/
instance (as : List Attempt) : Decidable (Orderly as) :=
  inferInstanceAs (Decidable (_ ∧ _ ∧ _))

/-- What the field says between two calls, given what the object holds. -/
def FieldAfter (as : List Attempt) (fd : ℤ) (held : List ℕ) : Prop :=
  match as.getLast? with
  | none => fd = 0
  | some .notOpened => fd = -1
  | some .turnedAway => ∃ n : ℕ, fd = n ∧ n ∉ held
  | some .kept => ∃ (n : ℕ) (rest : List ℕ), fd = n ∧ held = n :: rest

/-- The object after the given attempts, before it is finalized: it holds one descriptor for each
success, and one more while `init` checks the version. -/
structure HoldsAfter (as : List Attempt) (held : List ℕ) (p : Process) : Prop where
  path_eq : p.file.path = path
  settle_eq : settle [] p.ledger = some held
  nodup : held.Nodup
  owned : ∀ n ∈ held, p.table n = some .shardFile
  idle : p.phase = .idle → held.length = as.count .kept ∧ FieldAfter as p.file.fd held
  detecting : p.phase = .detecting → ∃ (n : ℕ) (rest : List ℕ), p.file.fd = n ∧ held = n :: rest ∧
    rest.length = as.count .kept

variable {gv heap path}

/-- The attempts behind one more action. -/
theorem attempts_concat (as : List Action) (a : Action) :
    attempts gv heap path (as ++ [a]) =
      attempts gv heap path as ++ (attemptOf gv heap path a).toList := by
  unfold attempts
  rw [List.filterMap_append]
  cases h : attemptOf gv heap path a with
  | none => simp [h]
  | some t => simp [h]

/-- To close a descriptor takes it out of the table, and is noted in the ledger. -/
theorem Process.close_nat (p : Process) (n : ℕ) :
    p.close n = { p with
      table := Function.update p.table n none
      ledger := p.ledger ++ [.released n] } := by
  unfold Process.close
  rw [if_neg (by omega), Int.toNat_natCast]

/-- A new object holds nothing. -/
theorem holdsAfter_constructed (table : ℕ → Option Owner) :
    HoldsAfter path [] [] (.constructed table path) where
  path_eq := rfl
  settle_eq := rfl
  nodup := List.nodup_nil
  owned := fun _ hn => absurd hn List.not_mem_nil
  idle := fun _ => ⟨rfl, rfl⟩
  detecting := fun h => by cases h

/-- Steps of the rest of the program do not touch what the object holds. -/
theorem HoldsAfter.congr {as : List Attempt} {held : List ℕ} {p : Process}
    (h : HoldsAfter path as held p) {table : ℕ → Option Owner}
    (htable : ∀ n, p.table n = some .shardFile → table n = some .shardFile) :
    HoldsAfter path as held { p with table := table } where
  path_eq := h.path_eq
  settle_eq := h.settle_eq
  nodup := h.nodup
  owned := fun n hn => htable n (h.owned n hn)
  idle := h.idle
  detecting := h.detecting

/-- A failed `open` leaves `-1` behind. -/
theorem HoldsAfter.notOpened {as : List Attempt} {held : List ℕ} {p : Process}
    (h : HoldsAfter path as held p) (hidle : p.phase = .idle) {file : EosShardShardFile}
    (hpath : file.path = path) (hfd : file.fd = -1) (results : List (Option GError)) :
    HoldsAfter path (as ++ [.notOpened]) held { p with file := file, results := results } where
  path_eq := hpath
  settle_eq := h.settle_eq
  nodup := h.nodup
  owned := h.owned
  idle := by
    intro _
    refine ⟨?_, ?_⟩
    · rw [(h.idle hidle).1, List.count_append]
      rfl
    · unfold FieldAfter
      rw [List.getLast?_concat]
      exact hfd
  detecting := by
    intro hphase
    rw [hidle] at hphase
    cases hphase

/-- A successful `open` takes a number that is not held. -/
theorem HoldsAfter.opened {as : List Attempt} {held : List ℕ} {p : Process}
    (h : HoldsAfter path as held p) (hidle : p.phase = .idle) {n : ℕ} (hfree : p.table n = none)
    {file : EosShardShardFile} (hpath : file.path = path) (hfd : file.fd = n) :
    HoldsAfter path as (n :: held) { p.opened n with file := file, phase := .detecting } where
  path_eq := hpath
  settle_eq := settle_concat_acquired h.settle_eq n
  nodup := by
    refine List.nodup_cons.mpr ⟨fun hn => ?_, h.nodup⟩
    rw [h.owned n hn] at hfree
    cases hfree
  owned := by
    intro m hm
    show Function.update p.table n (some .shardFile) m = some .shardFile
    by_cases hmn : m = n
    · rw [hmn, Function.update_self]
    · rw [Function.update_of_ne hmn]
      exact h.owned m ((List.mem_cons.mp hm).resolve_left hmn)
  idle := fun hphase => by cases hphase
  detecting := fun _ => ⟨n, held, hfd, rfl, (h.idle hidle).1⟩

/-- A success keeps the descriptor. -/
theorem HoldsAfter.kept {as : List Attempt} {held : List ℕ} {p : Process}
    (h : HoldsAfter path as held p) (hdetecting : p.phase = .detecting) (impl : ShardFileImpl)
    (results : List (Option GError)) :
    HoldsAfter path (as ++ [.kept]) held
      { p with file := { p.file with impl := some impl }, phase := .idle, results := results } where
  path_eq := h.path_eq
  settle_eq := h.settle_eq
  nodup := h.nodup
  owned := h.owned
  idle := by
    intro _
    obtain ⟨n, rest, hfd, hheld, hlen⟩ := h.detecting hdetecting
    refine ⟨?_, ?_⟩
    · rw [hheld, List.length_cons, hlen, List.count_append]
      rfl
    · unfold FieldAfter
      rw [List.getLast?_concat]
      exact ⟨n, rest, hfd, hheld⟩
  detecting := fun hphase => by cases hphase

/-- A failed version check closes the descriptor, and the field keeps its number. -/
theorem HoldsAfter.turnedAway {as : List Attempt} {held : List ℕ} {p : Process}
    (h : HoldsAfter path as held p) (hdetecting : p.phase = .detecting)
    (results : List (Option GError)) :
    ∃ held', HoldsAfter path (as ++ [.turnedAway]) held'
      { p.close p.file.fd with
        file := { p.file with impl := none }, phase := .idle, results := results } := by
  obtain ⟨n, rest, hfd, hheld, hlen⟩ := h.detecting hdetecting
  have hnodup := h.nodup
  rw [hheld, List.nodup_cons] at hnodup
  rw [hfd, Process.close_nat]
  refine ⟨rest, ⟨h.path_eq, ?_, hnodup.2, ?_, ?_, fun hphase => by cases hphase⟩⟩
  · show settle [] (p.ledger ++ [.released n]) = some rest
    rw [settle_concat_released h.settle_eq, hheld, if_pos List.mem_cons_self,
      List.erase_cons_head]
  · intro m hm
    show Function.update p.table n none m = some .shardFile
    have hmn : m ≠ n := by
      rintro rfl
      exact hnodup.1 hm
    rw [Function.update_of_ne hmn]
    apply h.owned m
    rw [hheld]
    exact List.mem_cons_of_mem n hm
  · intro _
    refine ⟨?_, ?_⟩
    · rw [hlen, List.count_append]
      rfl
    · unfold FieldAfter
      rw [List.getLast?_concat]
      exact ⟨n, hfd, hnodup.1⟩

/-! ## The end of the life -/

/-- `finalize` balances the ledger exactly if the attempts were orderly. -/
theorem HoldsAfter.settle_close_iff {as : List Attempt} {held : List ℕ} {p : Process}
    (h : HoldsAfter path as held p) (hidle : p.phase = .idle) :
    settle [] (p.close p.file.fd).ledger = some [] ↔ Orderly as := by
  obtain ⟨hlen, hfield⟩ := h.idle hidle
  unfold Orderly
  rcases List.eq_nil_or_concat as with rfl | ⟨before, last, rfl⟩
  · -- no attempt: the field is the zero of the constructor
    have hfd : p.file.fd = ((0 : ℕ) : ℤ) := hfield
    have hheld : held = [] := List.length_eq_zero_iff.mp hlen
    rw [hfd, Process.close_nat, settle_concat_released h.settle_eq, hheld]
    simp
  · rw [List.concat_eq_append] at hlen hfield ⊢
    rw [List.dropLast_concat, List.getLast?_concat]
    unfold FieldAfter at hfield
    rw [List.getLast?_concat] at hfield
    rw [List.count_append] at hlen
    cases last with
    | notOpened =>
        have hfd : p.file.fd = -1 := hfield
        have hclose : p.close (-1) = p := if_pos (by norm_num)
        rw [hfd, hclose, h.settle_eq, Option.some.injEq, ← List.length_eq_zero_iff, hlen,
          ← List.count_eq_zero]
        simp
    | turnedAway =>
        obtain ⟨n, hfd, hn⟩ := hfield
        rw [hfd, Process.close_nat, settle_concat_released h.settle_eq, if_neg hn]
        simp
    | kept =>
        obtain ⟨n, rest, hfd, hheld⟩ := hfield
        rw [hfd, Process.close_nat, settle_concat_released h.settle_eq, hheld,
          if_pos List.mem_cons_self, List.erase_cons_head, Option.some.injEq,
          ← List.length_eq_zero_iff, ← List.count_eq_zero]
        rw [hheld, List.length_cons] at hlen
        have hrest : rest.length = before.count .kept := by
          simpa using hlen
        rw [hrest]
        simp

/-- What is true after every step of a life. -/
def LifeOk (gv : V1.GVariantFormat) (heap : Heap) (path : Option String) (as : List Action)
    (p : Process) : Prop :=
  (p.phase ≠ .finalized → ∃ held, HoldsAfter path (attempts gv heap path as) held p) ∧
    (p.phase = .finalized → (settle [] p.ledger = some [] ↔ Orderly (attempts gv heap path as)))

/-- The rest of the program may open and close its own descriptors. -/
theorem LifeOk.congr {as : List Action} {p : Process} (h : LifeOk gv heap path as p) {a : Action}
    (ha : attemptOf gv heap path a = none) {table : ℕ → Option Owner}
    (htable : ∀ n, p.table n = some .shardFile → table n = some .shardFile) :
    LifeOk gv heap path (as ++ [a]) { p with table := table } := by
  unfold LifeOk
  rw [attempts_concat, ha, Option.toList_none, List.append_nil]
  refine ⟨fun hphase => ?_, h.2⟩
  obtain ⟨held, hheld⟩ := h.1 hphase
  exact ⟨held, hheld.congr htable⟩

/-- A state between the calls. -/
theorem lifeOk_of_holdsAfter {as : List Action} {p : Process} (held : List ℕ)
    (hphase : p.phase ≠ .finalized) (h : HoldsAfter path (attempts gv heap path as) held p) :
    LifeOk gv heap path as p :=
  ⟨fun _ => ⟨held, h⟩, fun hfin => absurd hfin hphase⟩

/-- `init`, up to the version check. -/
theorem LifeOk.init {as : List Action} {p p' : Process} (h : LifeOk gv heap path as p)
    {answer : OpenAnswer} (hstep : p.step gv heap (.init answer) = some p') :
    LifeOk gv heap path (as ++ [.init answer]) p' := by
  unfold Process.step at hstep
  simp only at hstep
  by_cases hidle : p.phase = .idle
  · obtain ⟨held, hheld⟩ := h.1 (by rw [hidle]; decide)
    have hlife : p.phase ≠ .finalized := by rw [hidle]; decide
    rw [if_pos hidle] at hstep
    unfold initOpen at hstep
    rw [hheld.path_eq] at hstep
    cases path with
    | none =>
        cases hstep
        have hnone : attemptOf gv heap none (.init answer) = none := by
          cases answer <;> rfl
        refine lifeOk_of_holdsAfter held hlife ?_
        rw [attempts_concat, hnone, Option.toList_none, List.append_nil]
        exact ⟨hheld.path_eq, hheld.settle_eq, hheld.nodup, hheld.owned, hheld.idle, hheld.detecting⟩
    | some path =>
        cases answer with
        | descriptor n =>
            simp only at hstep
            by_cases hfree : p.table n = none
            · rw [if_pos hfree] at hstep
              cases hstep
              refine lifeOk_of_holdsAfter (n :: held) (by simp) ?_
              rw [attempts_concat]
              simp only [attemptOf, Option.toList_none, List.append_nil]
              exact hheld.opened hidle hfree rfl rfl
            · rw [if_neg hfree] at hstep
              cases hstep
        | notFound =>
            cases hstep
            refine lifeOk_of_holdsAfter held hlife ?_
            rw [attempts_concat]
            exact hheld.notOpened hidle rfl rfl _
        | failed message =>
            cases hstep
            refine lifeOk_of_holdsAfter held hlife ?_
            rw [attempts_concat]
            exact hheld.notOpened hidle rfl rfl _
  · rw [if_neg hidle] at hstep
    cases hstep

/-- The version check. -/
theorem LifeOk.detect {as : List Action} {p p' : Process} (h : LifeOk gv heap path as p)
    {contents : Bytes} (hstep : p.step gv heap (.detect contents) = some p') :
    LifeOk gv heap path (as ++ [.detect contents]) p' := by
  unfold Process.step at hstep
  simp only at hstep
  by_cases hdetecting : p.phase = .detecting
  · obtain ⟨held, hheld⟩ := h.1 (by rw [hdetecting]; decide)
    rw [if_pos hdetecting] at hstep
    unfold initDetect at hstep
    unfold LifeOk
    rw [attempts_concat, attemptOf, Option.toList_some]
    rcases hdet : detectVersion gv heap contents with (e | -) | impl
    · rw [hdet] at hstep
      cases hstep
      refine ⟨fun _ => ?_, fun hfin => by cases hfin⟩
      exact hheld.turnedAway hdetecting _
    · rw [hdet] at hstep
      cases hstep
    · rw [hdet] at hstep
      cases hstep
      refine ⟨fun _ => ⟨held, ?_⟩, fun hfin => by cases hfin⟩
      exact hheld.kept hdetecting impl _
  · rw [if_neg hdetecting] at hstep
    cases hstep

/-- One step of a life. -/
theorem LifeOk.step {as : List Action} {p p' : Process} {a : Action} (h : LifeOk gv heap path as p)
    (hstep : p.step gv heap a = some p') : LifeOk gv heap path (as ++ [a]) p' := by
  cases a with
  | programOpens n =>
      unfold Process.step at hstep
      simp only [Option.ite_none_right_eq_some, Option.some.injEq] at hstep
      obtain ⟨hfree, rfl⟩ := hstep
      apply h.congr rfl
      intro m hm
      have hmn : m ≠ n := by
        rintro rfl
        rw [hfree] at hm
        cases hm
      rw [Function.update_of_ne hmn]
      exact hm
  | programCloses n =>
      unfold Process.step at hstep
      simp only [Option.ite_none_right_eq_some, Option.some.injEq] at hstep
      obtain ⟨hopen, rfl⟩ := hstep
      apply h.congr rfl
      intro m hm
      have hmn : m ≠ n := by
        rintro rfl
        rw [hopen] at hm
        cases hm
      rw [Function.update_of_ne hmn]
      exact hm
  | init answer => exact h.init hstep
  | detect contents => exact h.detect hstep
  | finalize =>
      unfold Process.step at hstep
      simp only [Option.ite_none_right_eq_some, Option.some.injEq] at hstep
      obtain ⟨hidle, rfl⟩ := hstep
      obtain ⟨held, hheld⟩ := h.1 (by rw [hidle]; decide)
      unfold LifeOk
      rw [attempts_concat]
      simp only [attemptOf, Option.toList_none, List.append_nil]
      exact ⟨fun hphase => absurd rfl hphase, fun _ => hheld.settle_close_iff hidle⟩

/-- **When a shard file closes exactly its own descriptors.** In every life from the construction to
`finalize`, among any steps of the rest of the program, the object has closed only descriptors that it
had got from `open` and not closed yet, and has closed all of them, if and only if its attempts to open
the file were orderly: there was one, none before the last succeeded, and the last one failed in `open`
or succeeded. -/
theorem closesItsOwn_iff {table : ℕ → Option Owner} {as : List Action} {p : Process}
    (hrun : runActions (Process.step gv heap) (.constructed table path) as = some p)
    (hfin : p.phase = .finalized) :
    settle [] p.ledger = some [] ↔ Orderly (attempts gv heap path as) := by
  have h₀ : LifeOk gv heap path [] (.constructed table path) :=
    lifeOk_of_holdsAfter [] (by simp [Process.constructed]) (holdsAfter_constructed table)
  have h : LifeOk gv heap path as p :=
    runActions_rule (P := LifeOk gv heap path) h₀ (fun _ _ _ _ hP hstep => hP.step hstep) hrun
  exact h.2 hfin

/-- The table of a process that has its three standard descriptors open. -/
def standardTable (n : ℕ) : Option Owner := if n < 3 then some .program else none

/-- A life in which the first `open` fails and the second call of `init` succeeds, among some steps of
the rest of the program. -/
def retriedLife : List Action :=
  [.init .notFound, .programCloses 0, .init (.descriptor 0), .programOpens 3,
    .detect V2.tombstoneFile, .programCloses 3, .finalize]

/-- In such a life the descriptor is closed once. -/
theorem closesItsOwn_iff_retriedLife :
    ∃ p, runActions (Process.step V1.gvariant fun n => List.Vector.replicate n 0)
        (.constructed standardTable (some "shard")) retriedLife = some p ∧
      settle [] p.ledger = some [] := by
  have hphase : (runActions (Process.step V1.gvariant fun n => List.Vector.replicate n 0)
      (.constructed standardTable (some "shard")) retriedLife).map Process.phase =
        some .finalized := by
    decide +kernel
  obtain ⟨p, hrun, hfin⟩ := Option.map_eq_some_iff.mp hphase
  exact ⟨p, hrun, (closesItsOwn_iff hrun hfin).mpr (by decide +kernel)⟩

/-- `init` opens an empty file and closes it again, the rest of the program gets the same number for a
file of its own, and `finalize` closes that one. -/
def staleLife : List Action :=
  [.init (.descriptor 3), .detect [], .programOpens 3, .finalize]

/-- In such a life the descriptor is closed twice. -/
theorem staleLife_not_balanced :
    ∃ p, runActions (Process.step V1.gvariant fun n => List.Vector.replicate n 0)
        (.constructed standardTable (some "shard")) staleLife = some p ∧
      p.phase = .finalized ∧ p.ledger = [.acquired 3, .released 3, .released 3] ∧
      settle [] p.ledger = none ∧ p.table 3 = none :=
  ⟨_, rfl, rfl, rfl, rfl, rfl⟩

end EosShard
