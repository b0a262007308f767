import Cachedb.Proofs.Recency
import Mathlib.Data.List.Induction
import Mathlib.Logic.Relation

/-!
# Which tables a merge takes

Two tables belong to one tier if neither is more than `kTierRatio` times the
size of the other, and a run of `kCompactionTrigger` tables of one tier is to
be merged. `maybe_compact` walks from the oldest table to the newest, compares
each table with the smallest of its run so far, and sets out again at the
table that did not fit.

Both shortcuts show. A table compared with the smallest alone may be far from
the largest, so that a merged run need not be of one tier; and a run that is
cut short takes its tables with it, though with the table that cut it off some
of them might have been a run. This is a description of the walk in terms of
the sizes alone. It says exactly when a merged run is of one tier, and how a
run of one tier may lie to the tables before it so as not to be missed.

Lists of sizes are oldest first here, unless they are those of the code.
-/

namespace Cachedb

/-- Neither size is zero, and neither is more than `kTierRatio` times the
other. -/
def SameTier (a b : Nat) : Prop := min a b ≠ 0 ∧ max a b ≤ min a b * kTierRatio

instance (a b : Nat) : Decidable (SameTier a b) := by unfold SameTier; infer_instance

/-- Any two of these tables are of one tier. -/
def OneTier (run : List Nat) : Prop := ∀ a ∈ run, ∀ b ∈ run, SameTier a b

/-- Every table fits the smallest so far, which is `smallest` to begin with. -/
def Chained (smallest : Nat) : List Nat → Prop
  | [] => True
  | size :: sizes => SameTier size smallest ∧ Chained (min smallest size) sizes

/-- Tables that fit the smallest so far, up to one that does not. -/
structure Stretch (smallest : Nat) (run rest : List Nat) : Prop where
  chained : Chained smallest run
  cut : ∀ size ∈ rest.head?, ¬SameTier size (run.foldl min smallest)

/-- What the walk leaves behind before it sets out again: an empty table, or a
stretch too short to be merged. -/
inductive PassesOver : List Nat → List Nat → Prop
  | empty (rest : List Nat) : PassesOver (0 :: rest) rest
  | short (size : Nat) (run rest : List Nat) (hrun : Stretch size (size :: run) rest)
      (hlen : (size :: run).length < kCompactionTrigger) : PassesOver (size :: run ++ rest) rest

/-- The first stretch from the oldest table on that is long enough. -/
structure FirstLong (sizes run rest : List Nat) : Prop where
  reached : Relation.ReflTransGen PassesOver sizes (run ++ rest)
  stretch : Stretch (run.headD 0) run rest
  long : kCompactionTrigger ≤ run.length

/-- There is none: the tables are all in stretches that are too short. -/
def AllShort (sizes : List Nat) : Prop := Relation.ReflTransGen PassesOver sizes []

/-! ## A stretch is determined by where it starts -/

theorem Stretch.unique : ∀ {smallest : Nat} {run run' rest rest' : List Nat},
    Stretch smallest run rest → Stretch smallest run' rest' → run ++ rest = run' ++ rest' →
    run = run' ∧ rest = rest' := by
  intro smallest run
  induction run generalizing smallest with
  | nil =>
      intro run' rest rest' h h' heq
      cases run' with
      | nil => exact ⟨rfl, heq⟩
      | cons size run' =>
          have hcut := h.cut size (by rw [List.nil_append] at heq; rw [heq]; rfl)
          exact absurd h'.chained.1 hcut
  | cons size run ih =>
      intro run' rest rest' h h' heq
      cases run' with
      | nil =>
          have hcut := h'.cut size (by rw [List.nil_append] at heq; rw [← heq]; rfl)
          exact absurd h.chained.1 hcut
      | cons size' run' =>
          obtain ⟨rfl, htail⟩ := List.cons.inj heq
          obtain ⟨rfl, rfl⟩ := ih ⟨h.chained.2, h.cut⟩ ⟨h'.chained.2, h'.cut⟩ htail
          exact ⟨rfl, rfl⟩

theorem not_sameTier_zero (size : Nat) : ¬SameTier 0 size :=
  fun h => h.1 (Nat.zero_min size)

theorem PassesOver.rightUnique : Relator.RightUnique PassesOver := by
  intro sizes rest rest' h h'
  cases h with
  | empty =>
      cases h' with
      | empty => rfl
      | short _ _ _ hrun _ => exact absurd hrun.chained.1 (not_sameTier_zero 0)
  | short size run rest hrun hlen =>
      generalize hsizes : size :: run ++ rest = sizes at h'
      cases h' with
      | empty =>
          obtain ⟨rfl, _⟩ := List.cons.inj hsizes
          exact absurd hrun.chained.1 (not_sameTier_zero 0)
      | short size' run' _ hrun' _ =>
          obtain rfl : size = size' := (List.cons.inj hsizes).1
          exact (hrun.unique hrun' hsizes).2

/-- Nothing is skipped where a long stretch begins. -/
theorem FirstLong.stays {sizes run rest : List Nat} (h : FirstLong sizes run rest)
    (next : List Nat) : ¬PassesOver (run ++ rest) next := by
  intro hskip
  have hlong := h.long
  obtain ⟨size, tail, rfl⟩ : ∃ size tail, run = size :: tail := by
    cases run with
    | nil => exact absurd hlong (by decide)
    | cons size tail => exact ⟨size, tail, rfl⟩
  generalize hsizes : size :: tail ++ rest = sizes' at hskip
  cases hskip with
  | empty =>
      obtain ⟨rfl, _⟩ := List.cons.inj hsizes
      exact absurd h.stretch.chained.1 (not_sameTier_zero 0)
  | short size' run' _ hrun' hlen =>
      obtain rfl : size = size' := (List.cons.inj hsizes).1
      obtain ⟨htail, _⟩ := h.stretch.unique hrun' hsizes
      rw [← htail] at hlen
      omega

theorem FirstLong.unique {sizes run rest run' rest' : List Nat} (h : FirstLong sizes run rest)
    (h' : FirstLong sizes run' rest') : run = run' ∧ rest = rest' := by
  have hsame : run ++ rest = run' ++ rest' := by
    rcases Relation.ReflTransGen.total_of_right_unique PassesOver.rightUnique h.reached
      h'.reached with hto | hto
    · rcases hto.cases_head with heq | ⟨next, hskip, _⟩
      · exact heq
      · exact absurd hskip (h.stays next)
    · rcases hto.cases_head with heq | ⟨next, hskip, _⟩
      · exact heq.symm
      · exact absurd hskip (h'.stays next)
  have hhead : run.headD 0 = run'.headD 0 := by
    have hlong := h.long
    have hlong' := h'.long
    cases run with
    | nil => exact absurd hlong (by decide)
    | cons size run =>
        cases run' with
        | nil => exact absurd hlong' (by decide)
        | cons size' run' => exact (List.cons.inj hsame).1
  have hstretch := h'.stretch
  rw [← hhead] at hstretch
  exact h.stretch.unique hstretch hsame

theorem FirstLong.not_allShort {sizes run rest : List Nat} (h : FirstLong sizes run rest) :
    ¬AllShort sizes := by
  intro hall
  have hlong := h.long
  rcases Relation.ReflTransGen.total_of_right_unique PassesOver.rightUnique h.reached hall with
    hto | hto
  · rcases hto.cases_head with heq | ⟨next, hskip, _⟩
    · rw [(List.append_eq_nil_iff.mp heq).1] at hlong
      exact absurd hlong (by decide)
    · exact h.stays next hskip
  · rcases hto.cases_head with heq | ⟨next, hskip, _⟩
    · rw [(List.append_eq_nil_iff.mp heq.symm).1] at hlong
      exact absurd hlong (by decide)
    · cases hskip

/-! ## What the code walks -/

/-- The newest `i` tables, oldest of them first: what is ahead of the walk. -/
def ahead (sizes : List Nat) (i : Nat) : List Nat := (sizes.take i).reverse

theorem ahead_zero (sizes : List Nat) : ahead sizes 0 = [] := by
  rw [ahead, List.take_zero, List.reverse_nil]

theorem ahead_succ {sizes : List Nat} {i : Nat} (h : i < sizes.length) :
    ahead sizes (i + 1) = sizes.getD i 0 :: ahead sizes i := by
  rw [ahead, ahead, List.take_add_one, List.getElem?_eq_getElem h, List.reverse_append,
    List.getD_eq_getElem?_getD, List.getElem?_eq_getElem h]
  rfl

theorem length_ahead {sizes : List Nat} {i : Nat} (h : i ≤ sizes.length) :
    (ahead sizes i).length = i := by
  rw [ahead, List.length_reverse, List.length_take, Nat.min_eq_left h]

theorem ahead_length (sizes : List Nat) : ahead sizes sizes.length = sizes.reverse := by
  rw [ahead, List.take_length]

/-- The inner walk goes along a stretch. -/
theorem extendRun_stretch (sizes : List Nat) : ∀ (i smallest : Nat), i ≤ sizes.length →
    ∃ run, ahead sizes i = run ++ ahead sizes (extendRun sizes i smallest) ∧
      Stretch smallest run (ahead sizes (extendRun sizes i smallest)) := by
  intro i
  induction i with
  | zero =>
      intro smallest _
      refine ⟨[], rfl, trivial, fun size hsize => ?_⟩
      rw [extendRun, ahead_zero] at hsize
      cases hsize
  | succ i ih =>
      intro smallest hi
      have hahead : ahead sizes (i + 1) = sizes.getD i 0 :: ahead sizes i :=
        ahead_succ (by omega)
      rw [extendRun]
      split
      · next hbreak =>
          refine ⟨[], rfl, trivial, fun size hsize => ?_⟩
          rw [hahead] at hsize
          rw [← Option.some.inj hsize]
          intro htier
          rcases hbreak with hzero | hhigh
          · exact htier.1 hzero
          · exact Nat.not_lt.mpr htier.2 hhigh
      · next hfits =>
          rw [not_or, Nat.not_lt] at hfits
          obtain ⟨run, hrun, hstretch⟩ := ih (min (sizes.getD i 0) smallest) (by omega)
          refine ⟨sizes.getD i 0 :: run, ?_, ?_⟩
          · rw [hahead, hrun]
            rfl
          · rw [Nat.min_comm (sizes.getD i 0) smallest] at hstretch ⊢
            exact ⟨⟨hfits, hstretch.chained⟩, hstretch.cut⟩

/-- A walk that takes not even its first table found it empty. -/
theorem Stretch.empty {size : Nat} {rest : List Nat} (h : Stretch size [] (size :: rest)) :
    size = 0 := by
  by_contra hne
  refine h.cut size rfl ?_
  show SameTier size size
  rw [SameTier, Nat.min_self, Nat.max_self]
  exact ⟨hne, Nat.le_mul_of_pos_right _ (by decide)⟩

/-- Where the inner walk gets from the table at `k`, and what it took. -/
theorem extendRun_from {sizes : List Nat} {k : Nat} (hk : k + 1 ≤ sizes.length) :
    ∃ run, ahead sizes (k + 1) =
        run ++ ahead sizes (extendRun sizes (k + 1) (sizes.getD k 0)) ∧
      Stretch (sizes.getD k 0) run (ahead sizes (extendRun sizes (k + 1) (sizes.getD k 0))) ∧
      extendRun sizes (k + 1) (sizes.getD k 0) + run.length = k + 1 := by
  have hle := extendRun_le sizes (k + 1) (sizes.getD k 0)
  obtain ⟨run, hrun, hstretch⟩ := extendRun_stretch sizes (k + 1) (sizes.getD k 0) hk
  refine ⟨run, hrun, hstretch, ?_⟩
  have hlen := congrArg List.length hrun
  rw [List.length_append, length_ahead hk, length_ahead (by omega)] at hlen
  omega

theorem AllShort.skip {sizes rest : List Nat} (hskip : PassesOver sizes rest) (h : AllShort rest) :
    AllShort sizes := .head hskip h

theorem FirstLong.skip {sizes rest run after : List Nat} (hskip : PassesOver sizes rest)
    (h : FirstLong rest run after) : FirstLong sizes run after :=
  ⟨.head hskip h.reached, h.stretch, h.long⟩

/-- What the outer walk ends with: nothing, or the first stretch that is long
enough. -/
inductive Picked (sizes : List Nat) (i : Nat) : Option (Nat × Nat) → Prop
  | none (h : AllShort (ahead sizes i)) : Picked sizes i none
  | some (first len : Nat) (run : List Nat) (hlen : run.length = len)
      (hrun : ahead sizes (first + len) = run ++ ahead sizes first)
      (h : FirstLong (ahead sizes i) run (ahead sizes first)) : Picked sizes i (some (first, len))

theorem Picked.skip {sizes : List Nat} {i j : Nat} {o : Option (Nat × Nat)}
    (hskip : PassesOver (ahead sizes i) (ahead sizes j)) (h : Picked sizes j o) :
    Picked sizes i o := by
  cases h with
  | none h => exact .none (h.skip hskip)
  | some first len run hlen hrun h => exact .some first len run hlen hrun (h.skip hskip)

theorem pickRun_picked (sizes : List Nat) : ∀ (fuel i : Nat), i ≤ fuel → i ≤ sizes.length →
    Picked sizes i (pickRun sizes fuel i) := by
  intro fuel
  induction fuel with
  | zero =>
      intro i hi _
      obtain rfl : i = 0 := by omega
      refine .none ?_
      rw [ahead_zero]
      exact .refl
  | succ fuel ih =>
      intro i hfuel hi
      rw [pickRun]
      split
      · next hzero =>
          refine .none ?_
          rw [hzero, ahead_zero]
          exact .refl
      · next hpos =>
          obtain ⟨k, rfl⟩ : ∃ k, i = k + 1 := ⟨i - 1, by omega⟩
          rw [Nat.add_sub_cancel]
          have hahead : ahead sizes (k + 1) = sizes.getD k 0 :: ahead sizes k :=
            ahead_succ (by omega)
          obtain ⟨run, hrun, hstretch, hlen⟩ := extendRun_from hi
          generalize extendRun sizes (k + 1) (sizes.getD k 0) = j at hrun hstretch hlen ⊢
          cases run with
          | nil =>
              obtain rfl : j = k + 1 := hlen
              rw [hahead] at hstretch
              have hzero := hstretch.empty
              dsimp only
              rw [if_neg (by rw [Nat.sub_self]; decide), if_pos rfl]
              refine (ih k (by omega) (by omega)).skip ?_
              rw [hahead, hzero]
              exact .empty _
          | cons size run =>
              obtain rfl : sizes.getD k 0 = size := by
                rw [hahead] at hrun
                exact (List.cons.inj hrun).1
              dsimp only
              split
              · next hlong =>
                  have htaken : k + 1 - j = (sizes.getD k 0 :: run).length := by omega
                  rw [htaken] at hlong ⊢
                  refine .some j _ (sizes.getD k 0 :: run) rfl ?_ ⟨?_, hstretch, hlong⟩
                  · rw [hlen]
                    exact hrun
                  · rw [hrun]
              · next hshort =>
                  rw [List.length_cons] at hlen
                  have hne : ¬k + 1 = j := by omega
                  rw [if_neg hne]
                  refine (ih j (by omega) (by omega)).skip ?_
                  rw [hrun]
                  exact .short _ run _ hstretch (by rw [List.length_cons]; omega)

/-- The run at `first`, seen from the oldest of its tables. -/
theorem run_eq_reverse {sizes run : List Nat} {first len : Nat}
    (hrun : ahead sizes (first + len) = run ++ ahead sizes first) :
    run = ((sizes.drop first).take len).reverse := by
  rw [ahead, ahead, List.take_add, List.reverse_append] at hrun
  exact (List.append_cancel_right hrun).symm

/-! ## One tier -/

/-- Wherever a table is smaller than every older one of the run, the largest
of those still fits it. -/
def LargestFits (run : List Nat) : Prop :=
  ∀ older size newer, run = older ++ size :: newer → (∀ s ∈ older, size < s) →
    ∀ s ∈ older, s ≤ size * kTierRatio

theorem chained_concat (size : Nat) : ∀ (run : List Nat) (smallest : Nat),
    Chained smallest (run ++ [size]) ↔
      Chained smallest run ∧ SameTier size (run.foldl min smallest) := by
  intro run
  induction run with
  | nil =>
      intro smallest
      exact ⟨fun h => ⟨trivial, h.1⟩, fun h => ⟨h.2, trivial⟩⟩
  | cons head run ih =>
      intro smallest
      show (_ ∧ Chained _ (run ++ [size])) ↔ _
      rw [ih, ← and_assoc]
      rfl

theorem foldl_min_le : ∀ (run : List Nat) (smallest : Nat),
    run.foldl min smallest ≤ smallest ∧ ∀ s ∈ run, run.foldl min smallest ≤ s := by
  intro run
  induction run with
  | nil => intro smallest; exact ⟨Nat.le_refl _, List.forall_mem_nil _⟩
  | cons head run ih =>
      intro smallest
      obtain ⟨hle, hall⟩ := ih (min smallest head)
      refine ⟨Nat.le_trans hle (Nat.min_le_left _ _), fun s hs => ?_⟩
      rcases List.mem_cons.mp hs with rfl | hs
      · exact Nat.le_trans hle (Nat.min_le_right _ _)
      · exact hall s hs

theorem OneTier.largestFits {run : List Nat} (h : OneTier run) : LargestFits run := by
  intro older size newer hrun _ s hs
  have hold : s ∈ run := by
    rw [hrun]
    exact List.mem_append_left _ hs
  have hnew : size ∈ run := by
    rw [hrun]
    exact List.mem_append_right _ List.mem_cons_self
  have htier := h s hold size hnew
  rw [SameTier, kTierRatio] at htier
  rw [kTierRatio]
  omega

/-- A chain whose new smallest tables always fit the largest is one tier. The
induction adds the newest table: one that is smaller than all the others fits
the largest, and any other one lies between a table it is not smaller than and
twice the smallest. -/
theorem LargestFits.oneTier {smallest : Nat} {run : List Nat} (hfits : LargestFits run)
    (h : Chained smallest run) : OneTier run := by
  induction run using List.reverseRecOn with
  | nil => exact List.forall_mem_nil _
  | append_singleton older size ih =>
      obtain ⟨hchained, htier⟩ := (chained_concat size older smallest).mp h
      have holder : OneTier older := by
        refine ih (fun o x n ho hx => hfits o x (n ++ [size]) ?_ hx) hchained
        rw [ho, List.append_assoc]
        rfl
      have hleast := (foldl_min_le older smallest).2
      rw [SameTier, kTierRatio] at htier
      have hnew : ∀ s ∈ older, SameTier s size := by
        intro s hs
        have hs0 := holder s hs s hs
        have hle := hleast s hs
        have hfit : s ≤ size * kTierRatio := by
          by_cases hsmall : ∀ s ∈ older, size < s
          · exact hfits older size [] rfl hsmall s hs
          · push Not at hsmall
            obtain ⟨s', hs', hle'⟩ := hsmall
            have htier' := holder s hs s' hs'
            rw [SameTier, kTierRatio] at htier'
            rw [kTierRatio]
            omega
        rw [SameTier, kTierRatio] at hs0 ⊢
        rw [kTierRatio] at hfit
        omega
      intro a ha b hb
      rcases List.mem_append.mp ha with ha | ha
      · rcases List.mem_append.mp hb with hb | hb
        · exact holder a ha b hb
        · rw [List.mem_singleton.mp hb]
          exact hnew a ha
      · rw [List.mem_singleton.mp ha]
        rcases List.mem_append.mp hb with hb | hb
        · have htier' := hnew b hb
          rw [SameTier, kTierRatio] at htier' ⊢
          omega
        · rw [List.mem_singleton.mp hb, SameTier, kTierRatio]
          omega

theorem oneTier_reverse (run : List Nat) : OneTier run.reverse ↔ OneTier run := by
  unfold OneTier
  simp only [List.mem_reverse]

/-- One tier, in the words of the documentation. -/
theorem oneTier_iff (run : List Nat) :
    OneTier run ↔ (∀ a ∈ run, a ≠ 0) ∧ ∀ a ∈ run, ∀ b ∈ run, a ≤ b * kTierRatio := by
  constructor
  · intro h
    refine ⟨fun a ha => ?_, fun a ha b hb => ?_⟩
    · have htier := h a ha a ha
      rw [SameTier, Nat.min_self] at htier
      exact htier.1
    · have htier := h a ha b hb
      rw [SameTier, kTierRatio] at htier
      rw [kTierRatio]
      omega
  · rintro ⟨hpos, hratio⟩ a ha b hb
    have ha0 := hpos a ha
    have hb0 := hpos b hb
    have hab := hratio a ha b hb
    have hba := hratio b hb a ha
    rw [kTierRatio] at hab hba
    rw [SameTier, kTierRatio]
    omega

/-- The sizes `maybe_compact` goes by, newest table first. -/
def Store.tableSizes (s : Store) (d : Disk) : List Nat :=
  s.sstables.map fun t => d.fileSize t.path

/-- A key written and flushed over and over, with values of these lengths. -/
def rewrites (lengths : List Nat) : List Step :=
  lengths.flatMap fun n => [(.set [1] (List.replicate n 0) 0, Env.at 0), (.flush, Env.at 0)]

def flushedStore (lengths : List Nat) : Engine :=
  Engine.run ⟨Store.fresh {} (some {}), {}⟩ (rewrites lengths)

/-- Merged tables belong to one tier exactly when, in the first stretch from
the oldest table on that is long enough, a table smaller than all the older
ones of the stretch always fits the largest of them. -/
theorem merged_tables_one_tier_iff (sizes : List Nat) :
    (∀ first len, pickRun sizes sizes.length sizes.length = some (first, len) →
      first + len ≤ sizes.length ∧ kCompactionTrigger ≤ len ∧
        (∀ a ∈ (sizes.drop first).take len, a ≠ 0) ∧
        ∀ a ∈ (sizes.drop first).take len, ∀ b ∈ (sizes.drop first).take len,
          a ≤ b * kTierRatio) ↔
      ∀ run rest, FirstLong sizes.reverse run rest → LargestFits run := by
  have hpicked := pickRun_picked sizes sizes.length sizes.length (Nat.le_refl _) (Nat.le_refl _)
  constructor
  · intro h run rest hfirst
    cases hrun : pickRun sizes sizes.length sizes.length with
    | none =>
        rw [hrun] at hpicked
        cases hpicked with
        | none hall => exact absurd hall (by rw [ahead_length]; exact hfirst.not_allShort)
    | some p =>
        rw [hrun] at hpicked
        cases hpicked with
        | some first len run' _ heq hfirst' =>
            rw [ahead_length] at hfirst'
            obtain ⟨rfl, _⟩ := hfirst.unique hfirst'
            obtain ⟨_, _, htier⟩ := h first len hrun
            rw [run_eq_reverse heq]
            exact ((oneTier_reverse _).mpr ((oneTier_iff _).mpr htier)).largestFits
  · intro h first len hrun
    obtain ⟨hlong, hbound⟩ := pickRun_bounds hrun
    refine ⟨hbound, hlong, ?_⟩
    rw [hrun] at hpicked
    cases hpicked with
    | some _ _ run _ heq hfirst =>
        rw [ahead_length] at hfirst
        have htier := (h run _ hfirst).oneTier hfirst.stretch.chained
        rw [run_eq_reverse heq, oneTier_reverse] at htier
        exact (oneTier_iff _).mp htier

/-- Four tables of 136, 272, 68 and 68 bytes, the oldest first, are merged,
and one of them is four times the size of another. -/
theorem merged_tables_two_tiers :
    (flushedStore [68, 204, 0, 0]).store.tableSizes (flushedStore [68, 204, 0, 0]).disk =
        [68, 68, 272, 136] ∧
      ¬∀ first len, pickRun [68, 68, 272, 136] 4 4 = some (first, len) →
        first + len ≤ 4 ∧ kCompactionTrigger ≤ len ∧
          (∀ a ∈ ([68, 68, 272, 136].drop first).take len, a ≠ 0) ∧
          ∀ a ∈ ([68, 68, 272, 136].drop first).take len,
            ∀ b ∈ ([68, 68, 272, 136].drop first).take len, a ≤ b * kTierRatio := by
  refine ⟨by decide +kernel, fun h => ?_⟩
  obtain ⟨_, _, _, hratio⟩ := h 0 4 (by decide)
  exact absurd (hratio 272 (by decide) 68 (by decide)) (by decide)

/-! ## What is found -/

/-- Some tables that lie next to each other, enough of them to be merged, are
of one tier. -/
def HasTierRun (sizes : List Nat) : Prop :=
  ∃ first len, kCompactionTrigger ≤ len ∧ first + len ≤ sizes.length ∧
    OneTier ((sizes.drop first).take len)

/-- Nothing is picked where all stretches are short. -/
theorem pickRun_none_iff (sizes : List Nat) :
    pickRun sizes sizes.length sizes.length = none ↔ AllShort sizes.reverse := by
  have hpicked := pickRun_picked sizes sizes.length sizes.length (Nat.le_refl _) (Nat.le_refl _)
  cases hrun : pickRun sizes sizes.length sizes.length with
  | none =>
      rw [hrun] at hpicked
      cases hpicked with
      | none hall =>
          rw [ahead_length] at hall
          exact ⟨fun _ => hall, fun _ => rfl⟩
  | some p =>
      rw [hrun] at hpicked
      cases hpicked with
      | some _ _ _ _ _ hfirst =>
          rw [ahead_length] at hfirst
          constructor
          · intro hnone; cases hnone
          · intro hall; exact absurd hall hfirst.not_allShort

theorem foldl_min_mem : ∀ (run : List Nat) (smallest : Nat),
    run.foldl min smallest = smallest ∨ run.foldl min smallest ∈ run := by
  intro run
  induction run with
  | nil => intro smallest; exact Or.inl rfl
  | cons size run ih =>
      intro smallest
      rcases ih (min smallest size) with h | h
      · rw [List.foldl_cons, h]
        rcases Nat.le_total smallest size with hle | hle
        · exact Or.inl (Nat.min_eq_left hle)
        · exact Or.inr (by rw [Nat.min_eq_right hle]; exact List.mem_cons_self)
      · exact Or.inr (List.mem_cons_of_mem _ h)

/-- The smallest table of a stretch is one of its tables. -/
theorem smallest_mem (size : Nat) (run : List Nat) :
    (size :: run).foldl min size ∈ size :: run := by
  rcases foldl_min_mem (size :: run) size with h | h
  · rw [h]
    exact List.mem_cons_self
  · exact h

/-- A table in a chain fits the smallest of those before it. -/
theorem Chained.fits {size : Nat} {newer : List Nat} : ∀ {older : List Nat} {smallest : Nat},
    Chained smallest (older ++ size :: newer) → SameTier size (older.foldl min smallest) := by
  intro older
  induction older with
  | nil => intro smallest h; exact h.1
  | cons head older ih => intro smallest h; exact ih h.2

/-- The walk does not pass over a run of one tier that it starts at. -/
theorem OneTier.stays {run : List Nat} (htier : OneTier run)
    (hlong : kCompactionTrigger ≤ run.length) (newer rest : List Nat) :
    ¬PassesOver (run ++ newer) rest := by
  intro hskip
  generalize hsizes : run ++ newer = sizes at hskip
  cases hskip with
  | empty =>
      cases run with
      | nil => exact absurd hlong (by decide)
      | cons size run =>
          obtain ⟨rfl, _⟩ := List.cons.inj hsizes
          exact not_sameTier_zero 0 (htier 0 List.mem_cons_self 0 List.mem_cons_self)
  | short size st _ hrun hshort =>
      -- What the stretch took is too short to be all of the run.
      rcases List.append_eq_append_iff.mp hsizes with ⟨more, hst, _⟩ | ⟨left, hall, hrest⟩
      · have := congrArg List.length hst
        rw [List.length_append] at this
        omega
      · cases left with
        | nil =>
            rw [List.append_nil] at hall
            rw [hall] at hlong
            omega
        | cons next left =>
            have hnext : next ∈ run := by rw [hall]; simp
            have hleast : (size :: st).foldl min size ∈ run := by
              rw [hall]
              exact List.mem_append_left _ (smallest_mem size st)
            exact hrun.cut next (by rw [hrest]; rfl) (htier _ hnext _ hleast)

theorem OneTier.not_allShort {run : List Nat} (htier : OneTier run)
    (hlong : kCompactionTrigger ≤ run.length) (newer : List Nat) : ¬AllShort (run ++ newer) := by
  intro hall
  rcases hall.cases_head with hnil | ⟨rest, hskip, _⟩
  · rw [(List.append_eq_nil_iff.mp hnil).1] at hlong
    exact absurd hlong (by decide)
  · exact htier.stays hlong newer rest hskip

/-- The older tables that can take so many tables of a run with them that too
few are left. -/
def nearest (older run : List Nat) : List Nat :=
  older.reverse.take (2 * (kCompactionTrigger - 1) - run.length)

theorem mem_nearest_append {size : Nat} {front older run : List Nat}
    (h : size ∈ nearest older run) : size ∈ nearest (front ++ older) run := by
  rw [nearest, List.reverse_append, List.take_append]
  exact List.mem_append_left _ h

/-- The walk has taken all of the older tables and the first tables of the run,
and goes on with the rest. -/
theorem OneTier.found_beyond {size : Nat} {st older run taken left newer : List Nat}
    (htier : OneTier run) (hlong : kCompactionTrigger ≤ run.length)
    (hfar : ∀ size ∈ nearest older run, ¬SameTier (run.headD 0) size)
    (hst : size :: st = older ++ taken) (hrun : run = taken ++ left)
    (hstretch : Stretch size (size :: st) (left ++ newer))
    (hshort : (size :: st).length < kCompactionTrigger) : ¬AllShort (left ++ newer) := by
  have hlength := congrArg List.length hst
  have hparts := congrArg List.length hrun
  rw [List.length_append] at hlength hparts
  by_cases hleft : kCompactionTrigger ≤ left.length
  · refine OneTier.not_allShort (fun a ha b hb => htier a ?_ b ?_) hleft newer
    · rw [hrun]; exact List.mem_append_right _ ha
    · rw [hrun]; exact List.mem_append_right _ hb
  · exfalso
    cases taken with
    | nil => rw [List.length_nil] at hparts; omega
    | cons head taken =>
        cases older with
        | nil =>
            refine htier.stays hlong newer (left ++ newer) ?_
            rw [hrun, List.append_assoc, ← List.nil_append (head :: taken), ← hst]
            exact .short size st _ hstretch hshort
        | cons oldest older =>
            obtain rfl : size = oldest := (List.cons.inj hst).1
            -- So few are left of the run that all the older tables are near.
            have hnear : nearest (size :: older) run = (size :: older).reverse := by
              refine List.take_of_length_le ?_
              rw [List.length_reverse]
              simp only [List.length_cons, kCompactionTrigger] at *
              omega
            have hchained := hstretch.chained
            rw [hst] at hchained
            refine hfar _ ?_ (by rw [hrun]; exact hchained.fits)
            rw [hnear, List.mem_reverse]
            exact smallest_mem size older

/-- A run of one tier is not passed over if its oldest table is not of the tier
of one of those older ones. The induction is on the older tables: the walk
either stays among them, or starts at the run, or has taken all that were left
of them and some of the run. -/
theorem OneTier.found {run newer : List Nat} (htier : OneTier run)
    (hlong : kCompactionTrigger ≤ run.length) :
    ∀ {older : List Nat}, (∀ size ∈ nearest older run, ¬SameTier (run.headD 0) size) →
      ¬AllShort (older ++ (run ++ newer)) := by
  intro older
  induction hn : older.length using Nat.strongRecOn generalizing older with
  | ind n ih =>
      intro hfar hall
      -- Among the older tables the walk goes on with fewer of them.
      have hon : ∀ front older', older = front ++ older' → front ≠ [] →
          ¬AllShort (older' ++ (run ++ newer)) := by
        rintro front older' rfl hfront
        have hpos := List.length_pos_iff.mpr hfront
        rw [List.length_append] at hn
        exact ih older'.length (by omega) rfl fun size hsize =>
          hfar size (mem_nearest_append hsize)
      rcases hall.cases_head with hnil | ⟨rest, hskip, hrest⟩
      · rw [(List.append_eq_nil_iff.mp (List.append_eq_nil_iff.mp hnil).2).1] at hlong
        exact absurd hlong (by decide)
      · generalize hsizes : older ++ (run ++ newer) = sizes at hskip
        cases hskip with
        | empty =>
            cases older with
            | nil => exact htier.stays hlong newer rest (hsizes ▸ .empty rest)
            | cons size older =>
                obtain ⟨rfl, rfl⟩ := List.cons.inj hsizes
                exact hon [0] older rfl (by simp) hrest
        | short size st _ hstretch hshort =>
            rcases List.append_eq_append_iff.mp hsizes with ⟨taken, hst, hleft⟩ | ⟨older', ho, hr⟩
            · rcases List.append_eq_append_iff.mp hleft with ⟨more, hmore, _⟩ | ⟨left, hrun, rfl⟩
              · rw [hst, hmore, List.length_append, List.length_append] at hshort
                omega
              · exact htier.found_beyond hlong hfar hst hrun hstretch hshort hrest
            · rw [hr] at hrest
              exact hon _ older' ho (by simp) hrest

/-- The calls of a merge that have to succeed do, and its output, if there is
one, fits the file it is written to. -/
structure Store.MergeSucceeds (s : Store) (d : Disk) (env : Env) : Prop where
  sync : env.compact.file.sync = true
  rename : env.compact.rename = true
  fsyncDir : env.compact.fsyncDir = true
  room : ∀ first len, s.chooseRun d = some (first, len) →
    (compact ((s.sstables.drop first).take len) s.options.bloomBitsPerKey
      (first + len == s.sstables.length) (env.clock 0).wall).file.length ≤
        env.compact.file.room.bytes

/-- A run that was chosen is merged. -/
theorem Store.MergeSucceeds.ret {s : Store} {d : Disk} {env : Env} (h : s.MergeSucceeds d env)
    (hs : s.Sane) {first len : Nat} (hchosen : s.chooseRun d = some (first, len)) :
    (s.compactRun first len env).ret ≠ 0 := by
  obtain ⟨_, _, hlen, _⟩ := Store.chooseRun_bounds hchosen
  obtain ⟨ess, hess⟩ := hs.tables
  obtain ⟨out, hout, hcompact⟩ := compact_eq (holds_run hess first len) s.options.bloomBitsPerKey
    (first + len == s.sstables.length) (env.clock 0).wall
  have hroom := h.room first len hchosen
  rw [hcompact] at hroom
  rw [kCompactionTrigger] at hlen
  obtain ⟨t, hopen, _⟩ := openTable_writeTable hout.sorted hout.fits
    ⟨rfl, hroom.trans env.compact.file.room.indexable⟩ (s.runTarget first len) s.options.useBloom
  have htemp := writeTemp_ok .compactTmp hroom h.sync
  rw [Store.compactRun]
  simp only [hcompact, htemp, h.rename, h.fsyncDir]
  rw [← Store.runPaths, ← Store.runTarget, if_neg (by decide), if_neg (by decide)]
  split
  · rw [hopen]
    show len - 1 ≠ 0
    omega
  · show len ≠ 0
    omega

/-- A run of one tier that is long enough is not missed if its oldest table is
not of the tier of one of the nearest older tables: of none if the run has six
tables, of the one before it if it has five, of the two before it if it has
four. -/
theorem mergeable_run_found (s : Store) (d : Disk) (env : Env) (hs : s.Sane)
    (hon : s.options.useCompaction = true) (hdir : s.options.hasDir = true)
    (hmerge : s.MergeSucceeds d env) (older run newer : List Nat)
    (hsizes : (s.tableSizes d).reverse = older ++ (run ++ newer))
    (hlong : kCompactionTrigger ≤ run.length) (htier : OneTier run)
    (hfar : ∀ size ∈ nearest older run, ¬SameTier (run.headD 0) size) :
    (s.maybeCompact d env).ret ≠ 0 := by
  have hlength : (s.tableSizes d).length = older.length + (run.length + newer.length) := by
    rw [← List.length_reverse, hsizes, List.length_append, List.length_append]
  have hlen : ¬s.sstables.length < kCompactionTrigger := by
    rw [Store.tableSizes, List.length_map] at hlength
    omega
  have hchoose : s.chooseRun d =
      pickRun (s.tableSizes d) (s.tableSizes d).length (s.tableSizes d).length := by
    rw [Store.chooseRun, hon, hdir, Store.tableSizes, List.length_map]
    rw [if_neg (by decide), if_neg (by simpa using hlen)]
  have hfound : s.chooseRun d ≠ none := by
    rw [hchoose, ne_eq, pickRun_none_iff, hsizes]
    exact htier.found hlong hfar
  rw [Store.maybeCompact]
  cases hchosen : s.chooseRun d with
  | none => exact absurd hchosen hfound
  | some p => exact hmerge.ret hs hchosen

/-- Five tables of 68, 136 and three times 137 bytes, the oldest first. The
last four are of one tier, but the first of them ends up with the oldest, and
the other three are too few. -/
theorem mergeable_run_missed :
    HasTierRun ((flushedStore [0, 68, 69, 69, 69]).store.tableSizes
        (flushedStore [0, 68, 69, 69, 69]).disk) ∧
      ((flushedStore [0, 68, 69, 69, 69]).store.maybeCompact
        (flushedStore [0, 68, 69, 69, 69]).disk (Env.at 0)).ret = 0 := by
  have hsizes : (flushedStore [0, 68, 69, 69, 69]).store.tableSizes
      (flushedStore [0, 68, 69, 69, 69]).disk = [137, 137, 137, 136, 68] := by decide +kernel
  have hnone : (flushedStore [0, 68, 69, 69, 69]).store.chooseRun
      (flushedStore [0, 68, 69, 69, 69]).disk = none := by decide +kernel
  rw [hsizes, Store.maybeCompact, hnone]
  refine ⟨⟨0, 4, by decide, by decide, ?_⟩, rfl⟩
  unfold OneTier
  decide

/-- Behind a table four times their size, four tables of one size are found. -/
theorem mergeable_run_found_four :
    ((flushedStore [204, 0, 0, 0, 0]).store.maybeCompact (flushedStore [204, 0, 0, 0, 0]).disk
      (Env.at 0)).ret ≠ 0 := by
  have hsane : (flushedStore [204, 0, 0, 0, 0]).store.Sane := by
    have htime : Timely 0 (rewrites [204, 0, 0, 0, 0]) 0 :=
      .stand _ (by decide) (.stand _ (by decide) (.stand _ (by decide) (.stand _ (by decide)
        (.stand _ (by decide) (.stand _ (by decide) (.stand _ (by decide) (.stand _ (by decide)
          (.stand _ (by decide) (.stand _ (by decide) (le_refl (0 : Int64)))))))))))
    have hset : ∀ n < 2 ^ 32, Call.Fits (.set [1] (List.replicate n 0) 0) := fun n hn =>
      ⟨by decide, by rw [List.length_replicate]; exact hn⟩
    refine (Engine.run_refines (rewrites [204, 0, 0, 0, 0]) (Store.fresh_sane _ _)
      (Store.fresh_refines _ _ 0) htime fun step hstep => ?_).2.1
    simp only [rewrites, List.flatMap_cons, List.flatMap_nil, List.cons_append, List.nil_append,
      List.mem_cons, List.not_mem_nil, or_false] at hstep
    have hfits : step.1.Fits := by
      rcases hstep with rfl | rfl | rfl | rfl | rfl | rfl | rfl | rfl | rfl | rfl <;>
        first | exact hset _ (by decide) | trivial
    have henv : step.2 = Env.at 0 := by
      rcases hstep with rfl | rfl | rfl | rfl | rfl | rfl | rfl | rfl | rfl | rfl <;> rfl
    exact ⟨hfits, by rw [henv]; rfl, fun _ => by rw [henv]; exact ⟨fun _ => rfl, rfl, rfl⟩⟩
  have hchosen : (flushedStore [204, 0, 0, 0, 0]).store.chooseRun
      (flushedStore [204, 0, 0, 0, 0]).disk = some (0, 4) := by decide +kernel
  have hmerge : (flushedStore [204, 0, 0, 0, 0]).store.MergeSucceeds
      (flushedStore [204, 0, 0, 0, 0]).disk (Env.at 0) := by
    refine ⟨rfl, rfl, rfl, fun first len hrun => ?_⟩
    rw [hchosen] at hrun
    obtain ⟨rfl, rfl⟩ := Prod.mk.inj (Option.some.inj hrun)
    decide +kernel
  exact mergeable_run_found _ _ _ hsane (by decide +kernel) (by decide +kernel) hmerge [272]
    [68, 68, 68, 68] [] (by decide +kernel) (by decide) (by unfold OneTier; decide) (by decide)

end Cachedb
