import Statechart.Flat.Move
import Statechart.Proofs.Attachment
import Statechart.Proofs.Election
import Statechart.Proofs.Inheritance
import Statechart.Proofs.Reaction
import Statechart.Proofs.Repetitions

/-!
The moves of a well-formed chart. Compiling them never fails, and they are the reactions of the
trails: one for each trail and each input that a state on it declares. Nothing is bound but what the
moves run: the exits of a trail once for all of its moves, the rest of a move when it is made.
-/
namespace Statechart

/-- What tells the moves of one machine apart. -/
def Move.key {S I : Type} (m : Move S I) : Path S × I := (m.source, m.input)

theorem Leaf.byPath_eq_find {S I : Type} [DecidableEq S] [Hashable S] (leaves : List (Leaf S I))
    (path : Path S) :
    (Leaf.byPath leaves)[path]? = leaves.reverse.find? fun leaf => leaf.path == path := by
  unfold Leaf.byPath
  rw [getElem?_foldl_insert Leaf.path fun leaf => leaf]
  simp

namespace Chart

variable {S I : Type} [DecidableEq S] {chart : Chart S I} {root : Fin chart.size}

theorem candidates_of_records (wellformed : chart.Wellformed root)
    {trail : Trail S I (Fin chart.size)} (leads : chart.Leads root trail) {leaf : Leaf S I}
    (records : chart.Records .outside trail leaf) (c : Candidate S I) :
    c ∈ leaf.candidates ↔ chart.Inherits [] trail c := by
  rw [records_candidates (placed_of_leads wellformed leads) records]
  simp [Leaf.outside]

theorem candidate_of_declaration (wellformed : chart.Wellformed root)
    {above below : Trail S I (Fin chart.size)} {stop : Stop S I (Fin chart.size)}
    (leads : chart.Leads root (above ++ stop :: below)) {leaf : Leaf S I}
    (records : chart.Records .outside (above ++ stop :: below) leaf) {t : Transition S I}
    (declared : t ∈ stop.state.transitions) :
    ∃ c ∈ leaf.candidates, c.input = t.input ∧ c.rank = above.length + 1 := by
  have member : stop ∈ above ++ stop :: below := by simp
  have inside := wellformed_of_reaches wellformed (leads_reaches leads member)
  obtain ⟨landing, lands, _⟩ :=
    candidate_exists inside (leads_state_mem leads member) declared above.path
  refine ⟨_, (candidates_of_records wellformed leads records _).mpr
    ⟨above, stop, below, rfl, t, declared, landing, lands, rfl⟩, rfl, by simp⟩

theorem reacts_of_deepest (wellformed : chart.Wellformed root)
    {trail : Trail S I (Fin chart.size)} (leads : chart.Leads root trail) {leaf : Leaf S I}
    (records : chart.Records .outside trail leaf) {w : Candidate S I} (member : w ∈ leaf.candidates)
    (deepest : ∀ c ∈ leaf.candidates, c.input = w.input → c.rank ≤ w.rank) :
    ∃ next, w.target = next.path ∧
      chart.Reacts trail w.input w.rank (trail.exits ++ w.effect.toList ++ next.entries) next := by
  obtain ⟨above, stop, below, rfl, t, declared, landing, lands, rfl⟩ :=
    (candidates_of_records wellformed leads records w).mp member
  have silent : below.Silent t.input := by
    intro deeper among other declaredOther same
    obtain ⟨outer, inner, rfl⟩ := List.append_of_mem among
    have regrouped : above ++ stop :: (outer ++ deeper :: inner)
        = (above ++ stop :: outer) ++ deeper :: inner := by simp
    rw [regrouped] at leads records
    obtain ⟨c, memberC, named, rank⟩ :=
      candidate_of_declaration wellformed leads records declaredOther
    have bounded := deepest c memberC (named.trans same)
    rw [rank] at bounded
    simp only [List.length_append, List.length_cons, List.length_nil] at bounded
    omega
  refine ⟨above ++ landing, by simp, ?_⟩
  have answers : Trail.Answers (above ++ stop :: below) t.input above stop t :=
    ⟨declared, rfl, below, rfl, silent⟩
  have reacts := Reacts.intro answers lands
  simpa using reacts

theorem byPath_of_records [Hashable S] (wellformed : chart.Wellformed root)
    {leaves : List (Leaf S I)}
    (records : List.Forall₂ (chart.Records .outside) (chart.trails [] root) leaves)
    {trail : Trail S I (Fin chart.size)} (leads : chart.Leads root trail) :
    ∃ leaf, (Leaf.byPath leaves)[trail.path]? = some leaf ∧
      chart.Records .outside trail leaf := by
  obtain ⟨leaf, member, record⟩ :=
    forall₂_mem_left records ((mem_trails wellformed (clear_nil root)).mpr leads)
  have distinct : (leaves.map Leaf.path).Nodup := by
    rw [paths_of_records records]
    exact trails_paths_nodup wellformed (clear_nil root)
  refine ⟨leaf, ?_, record⟩
  rw [← path_of_records record]
  exact getElem?_foldl_insert_of_mem Leaf.path id distinct member

theorem target_of_deepest [Hashable S] (wellformed : chart.Wellformed root)
    {leaves : List (Leaf S I)}
    (records : List.Forall₂ (chart.Records .outside) (chart.trails [] root) leaves)
    {trail : Trail S I (Fin chart.size)} (leads : chart.Leads root trail) {leaf : Leaf S I}
    (record : chart.Records .outside trail leaf) {w : Candidate S I}
    (member : w ∈ leaf.candidates)
    (deepest : ∀ c ∈ leaf.candidates, c.input = w.input → c.rank ≤ w.rank) :
    ∃ next target, w.target = next.path ∧
      chart.Reacts trail w.input w.rank (trail.exits ++ w.effect.toList ++ next.entries) next ∧
      (Leaf.byPath leaves)[w.target]? = some target ∧ target.entries = next.entries := by
  obtain ⟨next, path, reacts⟩ := reacts_of_deepest wellformed leads record member deepest
  obtain ⟨target, here, recordNext⟩ :=
    byPath_of_records wellformed records (leads_of_reacts leads reacts)
  exact ⟨next, target, path, reacts, path ▸ here, entries_of_records recordNext⟩

variable [Named S] [Named I]

structure Carries (chart : Chart S I) (options : Options) (trail : Trail S I (Fin chart.size))
    (hooks : List Hook) (next : Trail S I (Fin chart.size)) (m : Move S I) : Prop where
  reacts : chart.Reacts trail m.input m.rank hooks next
  source : m.source = trail.path
  target : m.target = next.path
  label : m.label = options.label (trail.path.arrow m.input next.path)
  action : Performs m.action.run hooks

/-- The moves of one trail: one for each input that a state on it declares. -/
structure MovesAlong (chart : Chart S I) (options : Options) (trail : Trail S I (Fin chart.size))
    (moves : List (Move S I)) : Prop where
  carries : ∀ m ∈ moves, ∃ hooks next, chart.Carries options trail hooks next m
  inputs : (moves.map Move.input).Nodup
  complete : ∀ input, ¬ trail.Silent input → input ∈ moves.map Move.input

def MovesFrom (chart : Chart S I) (root : Fin chart.size) (options : Options)
    (moves : List (Move S I)) : Prop :=
  ∃ parts, moves = parts.flatten ∧
    List.Forall₂ (chart.MovesAlong options) (chart.trails [] root) parts

/-- What is attached for one move of a trail besides the exits, which it shares with the others. The
action of the move writes what these very attachments write, and nothing else. -/
structure Uses (chart : Chart S I) (options : Options) (trail : Trail S I (Fin chart.size))
    (shared : List Attachment) (m : Move S I) (used : List Attachment) : Prop where
  carries : ∃ next,
    chart.Carries options trail (trail.exits ++ used.map Attachment.hook) next m
  written : m.action.entries = Attachment.entries (shared ++ used)

/-- What is attached for the moves of one trail: its exits, once for all of them, and then, move by
move, whatever the move runs besides. -/
def AttachedAlong [DecidableEq I] (chart : Chart S I) (options : Options)
    (trail : Trail S I (Fin chart.size)) (moves : List (Move S I))
    (attachments : List Attachment) : Prop :=
  ∃ (shared : List Attachment) (uses : List (List Attachment)),
    attachments = shared ++ uses.flatten ∧ shared.map Attachment.hook = trail.exits ∧
      moves.map Move.input = trail.inputs ∧
      List.Forall₂ (chart.Uses options trail shared) moves uses

def AttachedFrom [DecidableEq I] (chart : Chart S I) (root : Fin chart.size) (options : Options)
    (moves : List (Move S I)) (attachments : List Attachment) : Prop :=
  ∃ parts : List (List (Move S I) × List Attachment),
    moves = parts.flatMap Prod.fst ∧ attachments = parts.flatMap Prod.snd ∧
      List.Forall₂ (fun trail part => chart.AttachedAlong options trail part.1 part.2)
        (chart.trails [] root) parts

variable {options : Options} {moves : List (Move S I)}

theorem made_of_attached [DecidableEq I] {attachments : List Attachment}
    (attached : chart.AttachedFrom root options moves attachments) :
    chart.MovesFrom root options moves := by
  obtain ⟨parts, rfl, _, along⟩ := attached
  refine ⟨parts.map Prod.fst, rfl, ?_⟩
  rw [List.forall₂_map_right_iff]
  refine along.imp ?_
  rintro trail part ⟨_, uses, _, _, inputs, each⟩
  constructor
  · intro m member
    obtain ⟨used, _, use⟩ := forall₂_mem_left each member
    obtain ⟨next, carries⟩ := use.carries
    exact ⟨_, next, carries⟩
  · rw [inputs]
    exact nodup_eraseDups _
  · intro input loud
    rw [inputs]
    exact Trail.mem_inputs.mpr loud

theorem trail_of_move (wellformed : chart.Wellformed root)
    (made : chart.MovesFrom root options moves) {m : Move S I} (member : m ∈ moves) :
    ∃ trail hooks next, chart.Leads root trail ∧ chart.Carries options trail hooks next m := by
  obtain ⟨parts, rfl, along⟩ := made
  obtain ⟨part, memberPart, member⟩ := List.mem_flatten.mp member
  obtain ⟨trail, memberTrail, each⟩ := forall₂_mem_right along memberPart
  obtain ⟨hooks, next, carries⟩ := each.carries m member
  exact ⟨trail, hooks, next, (mem_trails wellformed (clear_nil root)).mp memberTrail, carries⟩

theorem move_of_trail (wellformed : chart.Wellformed root)
    (made : chart.MovesFrom root options moves) {trail : Trail S I (Fin chart.size)}
    (leads : chart.Leads root trail) {input : I} (loud : ¬ trail.Silent input) :
    ∃ m ∈ moves, m.input = input ∧ ∃ hooks next, chart.Carries options trail hooks next m := by
  obtain ⟨parts, rfl, along⟩ := made
  obtain ⟨part, memberPart, each⟩ :=
    forall₂_mem_left along ((mem_trails wellformed (clear_nil root)).mpr leads)
  obtain ⟨m, member, named⟩ := List.mem_map.mp (each.complete input loud)
  exact ⟨m, List.mem_flatten.mpr ⟨part, memberPart, member⟩, named, each.carries m member⟩

theorem ends_of_moves (wellformed : chart.Wellformed root)
    (made : chart.MovesFrom root options moves) :
    ∀ m ∈ moves, m.source ∈ (chart.trails [] root).map Trail.path ∧
      m.target ∈ (chart.trails [] root).map Trail.path := by
  intro m member
  obtain ⟨trail, _, next, leads, carries⟩ := trail_of_move wellformed made member
  have leadsNext := leads_of_reacts leads carries.reacts
  rw [carries.source, carries.target]
  exact ⟨List.mem_map_of_mem ((mem_trails wellformed (clear_nil root)).mpr leads),
    List.mem_map_of_mem ((mem_trails wellformed (clear_nil root)).mpr leadsNext)⟩

theorem moves_keys_nodup (wellformed : chart.Wellformed root)
    (made : chart.MovesFrom root options moves) :
    (moves.map Move.key).Nodup := by
  obtain ⟨parts, rfl, along⟩ := made
  have distinct := trails_paths_nodup wellformed (clear_nil root)
  generalize chart.trails [] root = trails at along distinct
  induction along with
  | nil => exact List.nodup_nil
  | @cons trail part trails parts here others ih =>
    rw [List.map_cons, List.nodup_cons] at distinct
    rw [List.flatten_cons, List.map_append, List.nodup_append']
    refine ⟨?_, ih distinct.2, ?_⟩
    · apply List.Nodup.of_map Prod.snd
      rw [List.map_map]
      exact here.inputs
    · intro key first later
      obtain ⟨m, member, rfl⟩ := List.mem_map.mp first
      obtain ⟨other, memberOther, same⟩ := List.mem_map.mp later
      obtain ⟨otherPart, memberPart, memberOther⟩ := List.mem_flatten.mp memberOther
      obtain ⟨otherTrail, memberTrail, each⟩ := forall₂_mem_right others memberPart
      obtain ⟨_, _, carries⟩ := here.carries m member
      obtain ⟨_, _, carriesOther⟩ := each.carries other memberOther
      have path : otherTrail.path = trail.path :=
        carriesOther.source.symm.trans ((congrArg Prod.fst same).trans carries.source)
      exact distinct.1 (path ▸ List.mem_map_of_mem memberTrail)

end Chart

variable {S I : Type} [DecidableEq S] [Hashable S] [DecidableEq I] [Hashable I] [Named S] [Named I]

open Compilation

structure Move.Follows (options : Options) (leaf other : Leaf S I) (c : Candidate S I)
    (m : Move S I) : Prop where
  source : m.source = leaf.path
  input : m.input = c.input
  target : m.target = c.target
  rank : m.rank = c.rank
  label : m.label = options.label (leaf.path.arrow c.input c.target)
  action : Performs m.action.run (leaf.exits ++ c.effect.toList ++ other.entries)

omit [DecidableEq I] [Hashable I] in
theorem move_binds {index : Std.HashMap (Path S) (Leaf S I)} (options : Options)
    {leaf target : Leaf S I} {exits : List Action}
    (yields : List.Forall₂ Hook.Yields leaf.exits exits) {c : Candidate S I}
    (found : index[c.target]? = some target) :
    (leaf.move index options exits c).Binds fun m used => m.Follows options leaf target c ∧
      used.map Attachment.hook = c.effect.toList ++ target.entries ∧
      m.action.entries = exits.flatMap Action.entries ++ Attachment.entries used := by
  unfold Leaf.move
  rw [found]
  refine binds_bind (binds_bindOption c.effect) ?_
  rintro effect own ⟨hooks, actions, one⟩
  refine binds_bind (binds_bindAll target.entries) ?_
  rintro entries more ⟨hooksMore, actionsMore, all⟩
  have written : (Action.sequence (exits ++ effect.getD .idle :: entries)).entries
      = exits.flatMap Action.entries
        ++ ((effect.getD .idle).entries ++ entries.flatMap Action.entries) := by
    rw [Action.entries_sequence, List.flatMap_append, List.flatMap_cons]
  refine binds_pure ⟨⟨rfl, rfl, rfl, rfl, rfl, Action.performs_of_entries ?_⟩, ?_, ?_⟩
  · rw [written, List.append_assoc]
    exact List.rel_append (Hook.all_entries yields)
      (List.rel_append (Hook.option_entries one) (Hook.all_entries all))
  · rw [List.append_nil, List.map_append, hooks, hooksMore]
  · have first : (effect.getD .idle).entries = Attachment.entries own := by
      rw [Attachment.entries_eq, actions]
      cases effect <;> simp [Action.entries]
    rw [written, List.append_nil, first, Attachment.entries_append, Attachment.entries_eq more,
      actionsMore]

omit [DecidableEq I] [Hashable I] in
theorem move_makes {index : Std.HashMap (Path S) (Leaf S I)} (options : Options)
    {leaf target : Leaf S I} {exits : List Action}
    (yields : List.Forall₂ Hook.Yields leaf.exits exits) {c : Candidate S I}
    (found : index[c.target]? = some target) :
    (leaf.move index options exits c).Makes (Move.Follows options leaf target c) :=
  makes_of_binds (move_binds options yields found) fun _ _ => And.left

namespace Chart

variable {chart : Chart S I} {root : Fin chart.size} {options : Options}

omit [Hashable S] [DecidableEq I] [Hashable I] in
theorem carries_of_follows {trail next : Trail S I (Fin chart.size)} {leaf target : Leaf S I}
    (record : chart.Records .outside trail leaf) {w : Candidate S I} (path : w.target = next.path)
    (reacts : chart.Reacts trail w.input w.rank
      (trail.exits ++ w.effect.toList ++ next.entries) next)
    (entries : target.entries = next.entries) {m : Move S I}
    (follows : m.Follows options leaf target w) :
    chart.Carries options trail (trail.exits ++ w.effect.toList ++ next.entries) next m := by
  have source : leaf.path = trail.path := path_of_records record
  constructor
  · rw [follows.input, follows.rank]
    exact reacts
  · rw [follows.source, source]
  · rw [follows.target, path]
  · rw [follows.label, follows.input, source, path]
  · rw [← exits_of_records record, ← entries]
    exact follows.action

omit [DecidableEq I] [Hashable I] in
theorem winner_binds (wellformed : chart.Wellformed root) {leaves : List (Leaf S I)}
    (records : List.Forall₂ (chart.Records .outside) (chart.trails [] root) leaves)
    {trail : Trail S I (Fin chart.size)} (leads : chart.Leads root trail) {leaf : Leaf S I}
    (record : chart.Records .outside trail leaf) {shared : List Attachment}
    (yields : List.Forall₂ Hook.Yields leaf.exits (shared.map Attachment.action))
    {w : Candidate S I} (among : w ∈ leaf.candidates)
    (deepest : ∀ c ∈ leaf.candidates, c.input = w.input → c.rank ≤ w.rank) :
    (leaf.move (Leaf.byPath leaves) options (shared.map Attachment.action) w).Binds fun m used =>
      m.input = w.input ∧ chart.Uses options trail shared m used := by
  obtain ⟨next, target, path, reacts, here, entries⟩ :=
    target_of_deepest wellformed records leads record among deepest
  refine binds_weaken (move_binds options yields here) ?_
  rintro m used ⟨follows, hooks, written⟩
  have carries := carries_of_follows record path reacts entries follows
  rw [← entries, List.append_assoc, ← hooks] at carries
  refine ⟨follows.input, ⟨next, carries⟩, ?_⟩
  rw [written, Attachment.entries_append, ← Attachment.entries_eq]

omit [Hashable S] [Hashable I] [Named S] [Named I] in
theorem inputs_of_records {trail : Trail S I (Fin chart.size)} {leaf : Leaf S I}
    (record : chart.Records .outside trail leaf) : leaf.inputs = trail.inputs := by
  rw [Leaf.inputs, Trail.inputs, ← declared_of_records record, List.map_map]
  rfl

theorem leaf_moves_bind (wellformed : chart.Wellformed root) {leaves : List (Leaf S I)}
    (records : List.Forall₂ (chart.Records .outside) (chart.trails [] root) leaves)
    {trail : Trail S I (Fin chart.size)} (leads : chart.Leads root trail) {leaf : Leaf S I}
    (record : chart.Records .outside trail leaf) :
    (leaf.moves (Leaf.byPath leaves) options).Binds (chart.AttachedAlong options trail) := by
  have placed := placed_of_leads wellformed leads
  have ranked : Ranked leaf := records_ranked placed record ⟨List.nodup_nil, nofun⟩
  obtain ⟨winners, selected, inputs, deepest⟩ := Leaf.winners_of_distinct ranked.distinct
  unfold Leaf.moves
  refine binds_bind (binds_bindAll leaf.exits) ?_
  rintro _ shared ⟨hooks, rfl, yields⟩
  refine binds_bind (binds_of_ok selected) ?_
  rintro _ _ ⟨rfl, rfl⟩
  have each : ∀ w ∈ winners,
      (leaf.move (Leaf.byPath leaves) options (shared.map Attachment.action) w).Binds fun m used =>
        m.input = w.input ∧ chart.Uses options trail shared m used :=
    fun w member => winner_binds wellformed records leads record yields (deepest w member).1
      (deepest w member).2
  refine binds_weaken (binds_mapM each) ?_
  rintro _ _ ⟨parts, rfl, rfl, used⟩
  have named : (parts.map Prod.fst).map Move.input = trail.inputs := by
    rw [← inputs_of_records record, ← inputs, List.map_map]
    exact (map_eq_of_forall₂ (used.imp fun _ _ here => here.1.symm)).symm
  refine ⟨shared, parts.map Prod.snd, by simp [List.flatMap],
    hooks.trans (exits_of_records record), named, ?_⟩
  rw [List.forall₂_map_left_iff, List.forall₂_map_right_iff, List.forall₂_same]
  intro part member
  obtain ⟨_, _, _, here⟩ := forall₂_mem_right used member
  exact here

theorem allMoves_bind (wellformed : chart.Wellformed root) {leaves : List (Leaf S I)}
    (records : List.Forall₂ (chart.Records .outside) (chart.trails [] root) leaves)
    (options : Options) :
    (Leaf.allMoves leaves options).Binds (chart.AttachedFrom root options) := by
  have each : ∀ trail ∈ chart.trails [] root, ∀ leaf, chart.Records .outside trail leaf →
      (leaf.moves (Leaf.byPath leaves) options).Binds (chart.AttachedAlong options trail) := by
    intro trail member leaf record
    have leads := (mem_trails wellformed (clear_nil root)).mp member
    exact leaf_moves_bind wellformed records leads record
  unfold Leaf.allMoves
  refine binds_bind (binds_mapM_along records each) ?_
  rintro _ _ ⟨parts, rfl, rfl, along⟩
  exact binds_pure ⟨parts, rfl, by simp, along⟩

theorem moves_bind (accepted : chart.check root = .ok ()) (options : Options) :
    (chart.moves root options).Binds (chart.AttachedFrom root options) := by
  have wellformed := check_ok_iff.mp accepted
  obtain ⟨leaves, unrolled, records⟩ := leaves_records wellformed
  unfold moves
  refine binds_bind (binds_of_ok accepted) ?_
  rintro _ _ ⟨-, rfl⟩
  refine binds_bind (binds_of_ok unrolled) ?_
  rintro _ _ ⟨rfl, rfl⟩
  exact allMoves_bind wellformed records options

theorem allMoves_makes (wellformed : chart.Wellformed root) {leaves : List (Leaf S I)}
    (records : List.Forall₂ (chart.Records .outside) (chart.trails [] root) leaves)
    (options : Options) : (Leaf.allMoves leaves options).Makes (chart.MovesFrom root options) :=
  makes_of_binds (allMoves_bind wellformed records options) fun _ _ => made_of_attached

theorem moves_makes (accepted : chart.check root = .ok ()) (options : Options) :
    (chart.moves root options).Makes (chart.MovesFrom root options) :=
  makes_of_binds (moves_bind accepted options) fun _ _ => made_of_attached

/-- A checked chart compiles to moves whose sources are leaves. For a leaf and an input there is one
move if a state on the leaf's trail declares the input and none if not; it goes where the innermost
declaration leads, and its action runs the hooks on the way. -/
theorem moves_are_reactions (chart : Chart S I) (root : Fin chart.size) (options : Options)
    (journal : Journal) (accepted : chart.check root = .ok ()) :
    ∃ moves after, (chart.moves root options).run journal = (.ok moves, after) ∧
      (∀ m ∈ moves, ∃ trail, chart.Leads root trail ∧ m.source = trail.path) ∧
      ∀ trail, chart.Leads root trail → ∀ input,
        (trail.Silent input →
          moves.filter (fun m => m.source = trail.path ∧ m.input = input) = []) ∧
        (¬ trail.Silent input → ∃ rank hooks next m,
          chart.Reacts trail input rank hooks next ∧
          moves.filter (fun m => m.source = trail.path ∧ m.input = input) = [m] ∧
          m.rank = rank ∧ m.target = next.path ∧ Performs m.action.run hooks) := by
  have wellformed := check_ok_iff.mp accepted
  obtain ⟨moves, after, run, made⟩ := moves_makes accepted options journal
  refine ⟨moves, after, run, fun m member => ?_, fun trail leads input => ⟨?_, ?_⟩⟩
  · obtain ⟨trail, _, _, leads, carries⟩ := trail_of_move wellformed made member
    exact ⟨trail, leads, carries.source⟩
  · intro silent
    apply List.filter_eq_nil_iff.mpr
    intro m member both
    obtain ⟨source, named⟩ := of_decide_eq_true both
    obtain ⟨other, _, _, leadsOther, carries⟩ := trail_of_move wellformed made member
    have same : other = trail := leads_path_injective wellformed.sound leadsOther leads
      (carries.source.symm.trans source)
    subst same
    exact not_silent_of_reacts carries.reacts (named ▸ silent)
  · intro loud
    obtain ⟨m, member, named, hooks, next, carries⟩ := move_of_trail wellformed made leads loud
    subst named
    refine ⟨m.rank, hooks, next, m, carries.reacts, ?_, rfl, carries.target, carries.action⟩
    have alone := filter_of_distinct (fun m : Move S I => (m.source, m.input))
      (moves_keys_nodup wellformed made) member
    rw [← alone]
    apply List.filter_congr
    intro other _
    rw [carries.source, Bool.eq_iff_iff]
    simp

theorem lamp_moves_are_reactions : ∃ moves after,
    (lamp.moves lampRoot {}).run {} = (.ok moves, after) ∧
      ∃ m, moves.filter (fun m => m.source = ["off"] ∧ m.input = "switch") = [m] := by
  obtain ⟨moves, after, run, _, reactions⟩ := moves_are_reactions lamp lampRoot {} {} lamp_accepted
  have leads : lamp.Leads lampRoot
      [⟨lampRoot, { symbol := "off", transitions := [⟨"switch", "on", none⟩] }⟩] :=
    .leaf List.mem_cons_self rfl
  obtain ⟨_, _, _, m, _, alone, _⟩ := (reactions _ leads "switch").2 (by simp [Trail.Silent])
  exact ⟨moves, after, run, m, alone⟩

end Chart
end Statechart
