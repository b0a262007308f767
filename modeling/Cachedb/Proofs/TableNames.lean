import Cachedb.Model.FileNames
import Cachedb.Proofs.Integers

/-!
# Which names are taken for tables

`sequence_of` takes any digits in front of `.sst`, and `table_path` spells a
number in one way. The two agree on a name just if it is spelled that way or is
no number at all (`wellSpelled_iff`): digits that are too few, that have zeros
in front of the six that are printed, or that are more than 64 bits hold, are
read as the number of another file.

Where every entry of a directory is well spelled the constructor does what the
model says it does (`openNamed_eq`), which goes by the numbers alone. Where a
stray name is taken for a table that is not there, it throws
(`openNamed_stray`).
-/

namespace Cachedb

/-- Digits, and one at least. -/
def Numeral (digits : Bytes) : Prop := digits ≠ [] ∧ ∀ c ∈ digits, isDigit c = true

/-! ## Reading a name -/

theorem kTableSuffix_length : kTableSuffix.length = 4 := by decide

theorem sequenceOf_numeral {digits : Bytes} (h : Numeral digits) :
    sequenceOf (digits ++ kTableSuffix) = some (strtoull digits) := by
  have hpos : 0 < digits.length := List.length_pos_iff.mpr h.1
  have hall : digits.all isDigit = true := List.all_eq_true.mpr h.2
  have hlen : (digits ++ kTableSuffix).length - 4 = digits.length := by
    rw [List.length_append, kTableSuffix_length, Nat.add_sub_cancel]
  simp only [sequenceOf, kTableSuffix_length]
  rw [if_neg (by omega), hlen, List.drop_left, List.take_left, if_neg (not_not.mpr rfl),
    if_neg h.1, if_neg (by simp [hall])]

theorem sequenceOf_cases (name : Bytes) :
    sequenceOf name = none ∨ ∃ digits, name = digits ++ kTableSuffix ∧ Numeral digits := by
  simp only [sequenceOf, kTableSuffix_length]
  split
  · exact .inl rfl
  split
  · exact .inl rfl
  next hsuffix =>
  split
  · exact .inl rfl
  next hne =>
  split
  · exact .inl rfl
  next hall =>
  refine .inr ⟨name.take (name.length - 4), ?_, hne, ?_⟩
  · rw [← not_not.mp hsuffix, List.take_append_drop]
  · simpa using hall

/-- What a name is taken for. -/
theorem sequenceOf_iff (name : Bytes) (s : Nat) :
    sequenceOf name = some s ↔
      ∃ digits, name = digits ++ kTableSuffix ∧ Numeral digits ∧ s = strtoull digits := by
  constructor
  · intro h
    rcases sequenceOf_cases name with hnone | ⟨digits, rfl, hdigits⟩
    · cases hnone.symm.trans h
    · rw [sequenceOf_numeral hdigits] at h
      exact ⟨digits, rfl, hdigits, (Option.some.inj h).symm⟩
  · rintro ⟨digits, rfl, hdigits, rfl⟩
    exact sequenceOf_numeral hdigits

theorem sequenceOf_lt {name : Bytes} {s : Nat} (h : sequenceOf name = some s) : s < 2 ^ 64 := by
  obtain ⟨digits, _, _, rfl⟩ := (sequenceOf_iff name s).mp h
  rw [strtoull]
  omega

/-! ## Printing a number -/

theorem digitsValue_zeros (k : Nat) (digits : Bytes) :
    digitsValue (List.replicate k 48 ++ digits) = digitsValue digits := by
  induction k with
  | zero => rfl
  | succ k ih => exact ih

theorem digitsValue_padded (width s : Nat) : digitsValue (padded width s) = s := by
  rw [padded, digitsValue_zeros, (decimal_spec s).1]

theorem numeral_padded (width s : Nat) : Numeral (padded width s) := by
  obtain ⟨_, hne, hdigits⟩ := decimal_spec s
  refine ⟨by simp [padded, hne], fun c hc => ?_⟩
  rcases List.mem_append.mp hc with hc | hc
  · rw [List.eq_of_mem_replicate hc]
    decide
  · exact hdigits c hc

/-- Digits are the text of their value, behind the zeros it takes to get to
their length. -/
theorem replicate_decimal {digits : Bytes} (h : Numeral digits) :
    List.replicate (digits.length - (decimal (digitsValue digits)).length) 48 ++
      decimal (digitsValue digits) = digits := by
  induction digits with
  | nil => exact absurd rfl h.1
  | cons c rest ih =>
      by_cases hzero : c = 48 ∧ rest ≠ []
      · obtain ⟨rfl, hne⟩ := hzero
        have hrest := ih ⟨hne, fun d hd => h.2 d (List.mem_cons_of_mem _ hd)⟩
        have hvalue : digitsValue (48 :: rest) = digitsValue rest := digitsValue_zeros 1 rest
        have hlen := congrArg List.length hrest
        rw [List.length_append, List.length_replicate] at hlen
        rw [hvalue, List.length_cons, Nat.sub_add_comm (by omega), List.replicate_succ,
          List.cons_append, hrest]
      · rw [decimal_digitsValue h.1 h.2, Nat.sub_self]
        · rfl
        · intro hhead
          rw [not_and_or, not_not] at hzero
          rcases hzero with hc | hrest
          · exact absurd (Option.some.inj hhead) hc
          · rw [hrest]
            rfl

theorem padded_shape (s : Nat) :
    6 ≤ (padded kSequenceDigits s).length ∧
      (6 < (padded kSequenceDigits s).length → (padded kSequenceDigits s).head? ≠ some 48) := by
  have hlen : (padded kSequenceDigits s).length =
      6 - (decimal s).length + (decimal s).length := by
    rw [padded, List.length_append, List.length_replicate, kSequenceDigits]
  refine ⟨by omega, fun hlong => ?_⟩
  have hdecimal : padded kSequenceDigits s = decimal s := by
    rw [padded, kSequenceDigits, Nat.sub_eq_zero_of_le (by omega)]
    rfl
  rw [hdecimal] at hlong ⊢
  refine decimal_head_ne fun hzero => ?_
  rw [hzero] at hlong
  exact absurd hlong (by decide)

/-- The digits `table_path` prints: six at least, and more only where the first
is not zero. -/
theorem padded_iff {digits : Bytes} (h : Numeral digits) :
    padded kSequenceDigits (digitsValue digits) = digits ↔
      6 ≤ digits.length ∧ (6 < digits.length → digits.head? ≠ some 48) := by
  constructor
  · intro heq
    have hshape := padded_shape (digitsValue digits)
    rwa [heq] at hshape
  · rintro ⟨hsix, hhead⟩
    by_cases hlong : 6 < digits.length
    · have hsame := decimal_digitsValue h.1 h.2 fun hzero => absurd hzero (hhead hlong)
      rw [padded, hsame, kSequenceDigits, Nat.sub_eq_zero_of_le hsix]
      rfl
    · have hlen : digits.length = kSequenceDigits := Nat.le_antisymm (Nat.le_of_not_lt hlong) hsix
      rw [padded, ← hlen]
      exact replicate_decimal h

/-- The buffer of `table_path` has room for every 64-bit number. -/
theorem tableName_eq {s : Nat} (h : s < 2 ^ 64) :
    tableName s = padded kSequenceDigits s ++ kTableSuffix := by
  have hdigits := decimalDigits_length_le (s + 1) s 19 (by omega)
  rw [← decimal] at hdigits
  rw [tableName]
  refine List.take_of_length_le ?_
  rw [List.length_append, kTableSuffix_length, padded, List.length_append, List.length_replicate,
    kSequenceDigits]
  omega

theorem sequenceOf_tableName {s : Nat} (h : s < 2 ^ 64) : sequenceOf (tableName s) = some s := by
  rw [tableName_eq h, sequenceOf_numeral (numeral_padded _ _), strtoull, digitsValue_padded,
    Nat.min_eq_left (by omega)]

/-! ## Names that are read as what they are -/

/-- If a name is a number in front of `.sst`, it is one that 64 bits hold, with
six digits at least, and with more only where the first is not zero. -/
def WellSpelled (name : Bytes) : Prop :=
  ∀ digits, name = digits ++ kTableSuffix → Numeral digits →
    6 ≤ digits.length ∧ (6 < digits.length → digits.head? ≠ some 48) ∧ digitsValue digits < 2 ^ 64

theorem WellSpelled.sequenceOf_iff {name : Bytes} (h : WellSpelled name) {s : Nat}
    (hs : s < 2 ^ 64) : sequenceOf name = some s ↔ name = tableName s := by
  constructor
  · intro hname
    obtain ⟨digits, rfl, hdigits, rfl⟩ := (Cachedb.sequenceOf_iff name s).mp hname
    obtain ⟨hsix, hhead, hvalue⟩ := h digits rfl hdigits
    have hread : strtoull digits = digitsValue digits := Nat.min_eq_left (by omega)
    rw [hread, tableName_eq hvalue, (padded_iff hdigits).mpr ⟨hsix, hhead⟩]
  · rintro rfl
    exact sequenceOf_tableName hs

theorem WellSpelled.eq_tableName {name : Bytes} (h : WellSpelled name) {s : Nat}
    (hread : sequenceOf name = some s) : name = tableName s :=
  (h.sequenceOf_iff (sequenceOf_lt hread)).mp hread

/-- A name that is read as a number is spelled as the number is. -/
theorem wellSpelled_of_sequenceOf {name : Bytes}
    (h : ∀ s < 2 ^ 64, sequenceOf name = some s → name = tableName s) : WellSpelled name := by
  rintro digits rfl hdigits
  have hread := sequenceOf_numeral hdigits
  have hlt := sequenceOf_lt hread
  have hname := h _ hlt hread
  rw [tableName_eq hlt] at hname
  have hsame : digits = padded kSequenceDigits (strtoull digits) :=
    List.append_cancel_right hname
  have hvalue : digitsValue digits = strtoull digits := by
    conv_lhs => rw [hsame, digitsValue_padded]
  rw [← hvalue] at hsame hlt
  obtain ⟨hsix, hhead⟩ := (padded_iff hdigits).mp hsame.symm
  exact ⟨hsix, hhead, hlt⟩

theorem tablePath_iff (dir name : Bytes) (s : Nat) :
    dir ++ text "/" ++ name = tablePath dir s ↔ name = tableName s := by
  rw [tablePath, List.append_cancel_left_eq]

/-- The entries of a directory are taken for the tables they are. -/
structure Recognised (dir : Bytes) (names : List Bytes) : Prop where
  spelled : ∀ name ∈ names, ∀ s < 2 ^ 64,
    sequenceOf name = some s ↔ dir ++ text "/" ++ name = tablePath dir s
  apart : ∀ a ∈ names, ∀ b ∈ names, a ≠ b → ∀ s, sequenceOf a = some s → sequenceOf b ≠ some s
  stray : ∀ name ∈ names, (∀ s < 2 ^ 64, dir ++ text "/" ++ name ≠ tablePath dir s) →
    sequenceOf name = none

/-- Table names are recognised exactly in the directories in which every number
is spelled the way the store spells it. -/
theorem names_recognised_iff (dir : Bytes) (names : List Bytes) :
    Recognised dir names ↔ ∀ name ∈ names, WellSpelled name := by
  constructor
  · intro h name hname
    refine wellSpelled_of_sequenceOf fun s hs hread => ?_
    exact (tablePath_iff dir name s).mp ((h.spelled name hname s hs).mp hread)
  · intro h
    refine ⟨fun name hname s hs => ?_, fun a ha b hb hne s hread hread' => ?_,
      fun name hname hother => ?_⟩
    · rw [tablePath_iff]
      exact (h name hname).sequenceOf_iff hs
    · exact hne (((h a ha).eq_tableName hread).trans ((h b hb).eq_tableName hread').symm)
    · cases hread : sequenceOf name with
      | none => rfl
      | some s =>
          have hname := (tablePath_iff dir name s).mpr ((h name hname).eq_tableName hread)
          exact absurd hname (hother s (sequenceOf_lt hread))

/-- A name with too few digits is taken for a table, and for the same one as
another. So is a name with too many zeros, and a number that does not fit is
taken for the last there is. -/
theorem names_not_recognised :
    ¬Recognised (text "data") [text "7.sst", text "000007.sst"] ∧
      sequenceOf (text "7.sst") = some 7 ∧ tableName 7 = text "000007.sst" ∧
      sequenceOf (text "000007.sst") = some 7 ∧ sequenceOf (text "0000007.sst") = some 7 ∧
      sequenceOf (text "18446744073709551616.sst") = some (2 ^ 64 - 1) := by
  have hseven : sequenceOf (text "7.sst") = some 7 := by decide +kernel
  have hother : sequenceOf (text "000007.sst") = some 7 := by decide +kernel
  refine ⟨fun h => ?_, hseven, by decide +kernel, hother, by decide +kernel, by decide +kernel⟩
  exact h.apart _ (by simp) _ (by simp) (by decide +kernel) 7 hseven hother

/-! ## The constructor -/

/-- The number of every table fits its word, and so does the next. -/
def Disk.Numbered (d : Disk) : Prop := ∀ p ∈ d.tables.entries, p.1 + 1 < 2 ^ 64

namespace Directory

variable {dir : Directory} {d : Disk}

theorem read_eq_some_iff (dir : Directory) {name data : Bytes} :
    dir.read name = some data ↔ (name, data) ∈ dir.files := by
  rw [read, List.lookup_eq_some_iff]
  constructor
  · rintro ⟨before, after, hfiles, _⟩
    rw [hfiles]
    exact List.mem_append_right _ List.mem_cons_self
  · intro hmem
    obtain ⟨before, after, hfiles⟩ := List.append_of_mem hmem
    refine ⟨before, after, hfiles, fun p hp => bne_iff_ne.mpr fun heq => ?_⟩
    -- an earlier entry with this name would be a second one
    have hdistinct := dir.distinct
    rw [hfiles, List.map_append, List.map_cons] at hdistinct
    exact (List.nodup_append.mp hdistinct).2.2 p.1 (List.mem_map_of_mem hp) name
      List.mem_cons_self heq.symm

theorem mem_names (dir : Directory) (name : Bytes) :
    name ∈ dir.names ↔ ∃ data, dir.read name = some data := by
  simp [names, read_eq_some_iff]

/-- The directory holds the tables of the model under their names, and no
number is misspelled. -/
structure Shows (dir : Directory) (d : Disk) : Prop where
  read : ∀ s < 2 ^ 64, dir.read (FileName.table s).spelling = d.read (.table s)
  numbered : d.Numbered
  spelled : ∀ name ∈ dir.names, WellSpelled name

theorem Shows.mem_iff (h : dir.Shows d) (s : Nat) :
    s ∈ dir.names.filterMap sequenceOf ↔ s ∈ d.tables.keys := by
  have hread : ∀ s < 2 ^ 64, tableName s ∈ dir.names ↔ ∃ data, d.tables.find s = some data := by
    intro s hs
    rw [mem_names, ← FileName.spelling, h.read s hs, Disk.read]
  rw [List.mem_filterMap, SortedMap.keys, List.mem_map]
  constructor
  · rintro ⟨name, hname, hseq⟩
    rw [(h.spelled name hname).eq_tableName hseq, hread s (sequenceOf_lt hseq)] at hname
    obtain ⟨data, hfind⟩ := hname
    exact ⟨(s, data), SortedMap.find_eq_some_iff.mp hfind, rfl⟩
  · rintro ⟨p, hp, rfl⟩
    have hs : p.1 < 2 ^ 64 := Nat.lt_of_succ_lt (h.numbered p hp)
    refine ⟨tableName p.1, (hread p.1 hs).mpr ⟨p.2, ?_⟩, sequenceOf_tableName hs⟩
    exact SortedMap.find_eq_some_iff.mpr hp

/-- No two entries are read as one number. -/
theorem Shows.nodup (h : dir.Shows d) : (dir.names.filterMap sequenceOf).Nodup := by
  rw [List.Nodup, List.pairwise_filterMap]
  refine dir.distinct.imp_of_mem fun {a b} ha hb hne s hs t ht heq => hne ?_
  rw [(h.spelled a ha).eq_tableName hs, (h.spelled b hb).eq_tableName ht, heq]

/-- The scan finds the tables there are, newest first. -/
theorem Shows.scanNames_eq (h : dir.Shows d) : scanNames dir.names = d.tables.keys.reverse := by
  have hsorted : d.tables.keys.Pairwise (· < ·) := d.tables.sorted
  have hperm : (scanNames dir.names).Perm d.tables.keys.reverse := by
    refine (List.mergeSort_perm _ _).trans ((List.perm_ext_iff_of_nodup h.nodup ?_).mpr ?_)
    · exact List.pairwise_reverse.mpr (hsorted.imp Nat.ne_of_gt)
    · intro s
      rw [h.mem_iff, List.mem_reverse]
  have hscan : (scanNames dir.names).Pairwise (· ≥ ·) := by
    have hle := @List.pairwise_mergeSort Nat (fun a b => b ≤ a)
      (fun a b c hab hbc => by simp at *; omega) (fun a b => by simp; omega)
      (dir.names.filterMap sequenceOf)
    simpa [scanNames] using hle
  refine hperm.eq_of_pairwise (fun a b _ _ hab hba => Nat.le_antisymm hba hab) hscan ?_
  exact List.pairwise_reverse.mpr (hsorted.imp Nat.le_of_lt)

end Directory

open Directory

/-- Opening by number is opening the file under the number's name. -/
theorem mapM_openNamed {dir : Directory} {d : Disk} (h : dir.Shows d) (useBloom : Bool)
    (ps : List (Nat × Bytes)) (hps : ∀ p ∈ ps, p ∈ d.tables.entries) :
    ((ps.map Prod.fst).mapM fun s =>
      (dir.read (tableName s)).bind fun file => openTable (.table s) file useBloom) =
      ps.mapM fun p => openTable (.table p.1) p.2 useBloom := by
  induction ps with
  | nil => rfl
  | cons p ps ih =>
      have hp := hps p List.mem_cons_self
      have hread : dir.read (tableName p.1) = some p.2 := by
        rw [← FileName.spelling, h.read p.1 (Nat.lt_of_succ_lt (h.numbered p hp)), Disk.read]
        exact SortedMap.find_eq_some_iff.mpr hp
      rw [List.map_cons, List.mapM_cons, List.mapM_cons, hread,
        ih fun q hq => hps q (List.mem_cons_of_mem _ hq)]
      rfl

/-- On a directory in which every number is well spelled the constructor goes
by the tables. -/
theorem openNamed_eq {dir : Directory} {d : Disk} (h : dir.Shows d) (options : StoreOptions) :
    Store.openNamed options dir = Store.openDir options d := by
  have hmap := mapM_openNamed h options.useBloom d.tables.entries.reverse fun p hp =>
    List.mem_reverse.mp hp
  have hscan : scanNames dir.names = d.tables.entries.reverse.map Prod.fst := by
    rw [h.scanNames_eq, SortedMap.keys, List.map_reverse]
  rw [Store.openNamed, Store.openDir]
  split
  · rfl
  · simp only [hscan, hmap]
    generalize (d.tables.entries.reverse.mapM fun p =>
      openTable (.table p.1) p.2 options.useBloom) = opened
    cases opened with
    | none => rfl
    | some sstables =>
        cases hrev : d.tables.entries.reverse with
        | nil => rfl
        | cons p ps =>
            have hp : p ∈ d.tables.entries := by
              rw [← List.mem_reverse, hrev]
              exact List.mem_cons_self
            simp only [List.map_cons, Nat.mod_eq_of_lt (h.numbered p hp)]

theorem mapM_none {α β : Type} {f : α → Option β} {a : α} (hf : f a = none) {l : List α}
    (ha : a ∈ l) : l.mapM f = none := by
  induction l with
  | nil => cases ha
  | cons b l ih =>
      rw [List.mapM_cons]
      rcases List.mem_cons.mp ha with rfl | ha
      · rw [hf]
        rfl
      · rw [ih ha]
        cases f b <;> rfl

/-- The constructor throws where a name is taken for a table that is not
there. -/
theorem openNamed_stray {options : StoreOptions} (hdir : options.hasDir = true) {dir : Directory}
    {name : Bytes} {s : Nat} (hname : name ∈ dir.names) (hread : sequenceOf name = some s)
    (hmissing : tableName s ∉ dir.names) : Store.openNamed options dir = none := by
  have hscan : s ∈ scanNames dir.names := by
    rw [scanNames, List.mem_mergeSort]
    exact List.mem_filterMap.mpr ⟨name, hname, hread⟩
  have hnone : dir.read (tableName s) = none := by
    rw [Option.eq_none_iff_forall_ne_some]
    exact fun data hdata => hmissing ((dir.mem_names _).mpr ⟨data, hdata⟩)
  have hopen := mapM_none (f := fun seq => (dir.read (tableName seq)).bind fun file =>
    openTable (.table seq) file options.useBloom) (by rw [hnone]; rfl) hscan
  simp only [Store.openNamed, hdir, hopen, Bool.not_true, Bool.false_eq_true, if_false]

example : Store.openNamed {} { files := [(text "7.sst", [])], distinct := by simp } = none := by
  have hread : sequenceOf (text "7.sst") = some 7 := by decide +kernel
  exact openNamed_stray rfl (by simp [Directory.names]) hread (by decide +kernel)

/-! ## The directory of a store -/

namespace FileName

def sequence : FileName → Option Nat
  | .table s => some s
  | _ => none

/-- The number of a table fits its word. -/
def Fits (file : FileName) : Prop := ∀ s ∈ file.sequence, s < 2 ^ 64

theorem sequenceOf_spelling {file : FileName} (h : file.Fits) :
    sequenceOf file.spelling = file.sequence := by
  cases file with
  | log | flushTmp | compactTmp => decide +kernel
  | table s => exact sequenceOf_tableName (h s rfl)

/-- Different files have different names. -/
theorem spelling_inj {a b : FileName} (ha : a.Fits) (hb : b.Fits)
    (h : a.spelling = b.spelling) : a = b := by
  have hseq : a.sequence = b.sequence := by
    rw [← sequenceOf_spelling ha, h, sequenceOf_spelling hb]
  cases a with
  | table s =>
      cases b with
      | table t => rw [Option.some.inj hseq]
      | _ => cases hseq
  | _ =>
      cases b with
      | table t => cases hseq
      | _ => first | rfl | exact absurd h (by decide +kernel)

theorem wellSpelled {file : FileName} (h : file.Fits) : WellSpelled file.spelling := by
  refine wellSpelled_of_sequenceOf fun s hs hread => ?_
  rw [sequenceOf_spelling h] at hread
  cases file with
  | table t => rw [Option.some.inj hread, spelling]
  | _ => cases hread

end FileName

namespace Disk

/-- The files that are there. -/
def files (d : Disk) : List (FileName × Bytes) :=
  (d.log.toList.map fun data => (.log, data)) ++
    ((d.flushTmp.toList.map fun data => (.flushTmp, data)) ++
      ((d.compactTmp.toList.map fun data => (.compactTmp, data)) ++
        d.tables.entries.map fun p => (.table p.1, p.2)))

theorem files_nodup (d : Disk) : (d.files.map Prod.fst).Nodup := by
  have htables : (d.tables.entries.map fun p => FileName.table p.1).Nodup := by
    rw [List.Nodup, List.pairwise_map]
    refine (List.pairwise_map.mp d.tables.sorted).imp fun hlt heq => ?_
    exact Nat.ne_of_lt hlt (FileName.table.inj heq)
  cases hl : d.log <;> cases hf : d.flushTmp <;> cases hc : d.compactTmp <;>
    simp [files, hl, hf, hc, Function.comp_def, htables]

theorem files_fit {d : Disk} (h : d.Numbered) : ∀ p ∈ d.files, p.1.Fits := by
  have hother : FileName.log.Fits ∧ FileName.flushTmp.Fits ∧ FileName.compactTmp.Fits := by
    simp [FileName.Fits, FileName.sequence]
  intro p hp
  simp only [files, List.mem_append, List.mem_map] at hp
  rcases hp with ⟨_, _, rfl⟩ | ⟨_, _, rfl⟩ | ⟨_, _, rfl⟩ | ⟨q, hq, rfl⟩
  · exact hother.1
  · exact hother.2.1
  · exact hother.2.2
  · intro s hs
    rw [← Option.some.inj hs]
    exact Nat.lt_of_succ_lt (h q hq)

theorem spellings_nodup {d : Disk} (h : d.Numbered) :
    ((d.files.map fun p => (p.1.spelling, p.2)).map Prod.fst).Nodup := by
  rw [List.map_map, List.Nodup, List.pairwise_map]
  refine (List.pairwise_map.mp d.files_nodup).imp_of_mem fun {p q} hp hq hne heq => hne ?_
  exact FileName.spelling_inj (files_fit h p hp) (files_fit h q hq) heq

/-- The directory with these files and no others. -/
def directory (d : Disk) (h : d.Numbered) : Directory where
  files := d.files.map fun p => (p.1.spelling, p.2)
  distinct := spellings_nodup h

theorem mem_files_table (d : Disk) (s : Nat) (data : Bytes) :
    (.table s, data) ∈ d.files ↔ d.read (.table s) = some data := by
  rw [read, SortedMap.find_eq_some_iff]
  simp [files]

theorem directory_shows {d : Disk} (h : d.Numbered) : (d.directory h).Shows d where
  read := by
    intro s hs
    have hfits : (FileName.table s).Fits := fun t ht => Option.some.inj ht ▸ hs
    ext data
    rw [Directory.read_eq_some_iff, ← mem_files_table, directory, List.mem_map]
    constructor
    · rintro ⟨p, hp, heq⟩
      obtain ⟨hname, rfl⟩ := Prod.mk.inj heq
      rwa [← FileName.spelling_inj (files_fit h p hp) hfits hname]
    · exact fun hmem => ⟨_, hmem, rfl⟩
  numbered := h
  spelled := by
    intro name hname
    simp only [Directory.names, directory, List.map_map, List.mem_map] at hname
    obtain ⟨p, hp, rfl⟩ := hname
    exact FileName.wellSpelled (files_fit h p hp)

end Disk

/-- A directory only the store writes to is opened by its numbers. -/
theorem openNamed_directory {d : Disk} (h : d.Numbered) (options : StoreOptions) :
    Store.openNamed options (d.directory h) = Store.openDir options d :=
  openNamed_eq (d.directory_shows h) options

end Cachedb
