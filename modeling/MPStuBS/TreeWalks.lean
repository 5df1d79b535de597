import MPStuBS.TreeLookups

/-! The path walk leads where the route of the path leads in the tree, and takes a reference to
what it returns only. -/
namespace MPStuBS.VFS

open Prog FsM Minix Filesystem FileTree

variable {disk : Disk Errno} {t : SlotTree} {w₀ w w' : World Fs} {view : Nat → Bytes}
  {allowed : FsFault → Prop} {held : List Nat} {o dir ino at_ : Nat} {name : PathName}

theorem Goes.perm {held' : List Nat} (goes : Goes w₀ w held) (same : held.Perm held') : Goes w₀ w held' :=
  { goes with
    refs := fun o => by rw [goes.refs, same.count_eq]
    cached := fun o member => goes.cached o (same.mem_iff.mpr member) }

/-- One more reference was taken. -/
theorem Goes.more (goes : Goes w₀ w held) (snd : Goes w w' [o]) : Goes w₀ w' (o :: held) :=
  (goes.trans snd).perm (List.perm_append_singleton o held)

theorem Goes.none (goes : Goes w₀ w held) (snd : Goes w w' []) : Goes w₀ w' held :=
  (goes.trans snd).perm (by rw [List.append_nil])

/-- The function returns a new reference to the inode, or an error if it leads nowhere. -/
def Leads (disk : Disk Errno) (t : SlotTree) (w : World Fs) (held : List Nat) (target : Option Nat)
    (r : Except Errno Nat) (w' : World Fs) : Prop :=
  ∃ view', Pictures disk t w' view' ∧ match target with
    | none => (∃ e, r = .error e) ∧ Goes w w' held
    | some ino => (t.node ino).isSome ∧ ∃ o, r = .ok o ∧ Goes w w' (o :: held) ∧ Refers w' o ino

/-- The object of the root is in use. -/
def Rooted (t : SlotTree) (w : World Fs) : Prop := Refers w w.state.rootInode t.root

theorem Goes.rooted (goes : Goes w w' held) (rooted : Rooted t w) : Rooted t w' := by
  unfold Rooted
  rw [goes.volume.rootInode]
  exact goes.refers rooted

/-- A resolver does with the links of the tree what the function says. -/
def Expands (disk : Disk Errno) (t : SlotTree) (allowed : FsFault → Prop)
    (resolve : Nat → Nat → FsM (Except Errno Nat)) (expand : Nat → Nat → Option Nat) : Prop :=
  ∀ {w view dir at_ link ino target}, Pictures disk t w view → Rooted t w → Refers w dir at_ → t.isDir at_ = true →
    Refers w link ino → t.node ino = some (.link target) →
    Meets disk allowed (resolve link dir) (Leads disk t w [] (expand at_ ino)) w

section Modes

variable {s : Fs} {i : Inode} {node : Node Nat PathName} {slots : List (PathName × Nat)}

theorem isLnk_iff (shown : Shown s view i node slots) :
    Mode.isLnk i.mode = true ↔ ∃ target, node = .link target := by
  cases node with
  | dir parent entries =>
    have isDir : Mode.isDir i.mode = true := shown.depicts.mode
    refine ⟨fun isLnk => ?_, fun ⟨_, other⟩ => by cases other⟩
    simp only [Mode.isDir, Mode.isLnk, beq_iff_eq] at isDir isLnk
    rw [isDir] at isLnk
    exact absurd isLnk (by decide)
  | link target => exact ⟨fun _ => ⟨target, rfl⟩, fun _ => shown.depicts.mode⟩
  | file => exact ⟨fun isLnk => absurd isLnk (by simp [shown.depicts.2]), fun ⟨_, other⟩ => by cases other⟩

theorem isDir_iff (shown : Shown s view i node slots) :
    Mode.isDir i.mode = true ↔ ∃ parent entries, node = .dir parent entries := by
  cases node with
  | dir parent entries => exact ⟨fun _ => ⟨parent, entries, rfl⟩, fun _ => shown.depicts.mode⟩
  | link target =>
    have isLnk : Mode.isLnk i.mode = true := shown.depicts.mode
    refine ⟨fun isDir => ?_, fun ⟨_, _, other⟩ => by cases other⟩
    simp only [Mode.isDir, Mode.isLnk, beq_iff_eq] at isDir isLnk
    rw [isLnk] at isDir
    exact absurd isDir (by decide)
  | file => exact ⟨fun isDir => absurd isDir (by simp [shown.depicts.1]), fun ⟨_, _, other⟩ => by cases other⟩

theorem Refers.isDir_eq {node : Node Nat PathName} (refers : Refers w o ino) (pictured : Pictures disk t w view)
    (found : t.node ino = some node) : Mode.isDir (w.state.inodes o).mode = t.isDir ino := by
  rw [Bool.eq_iff_iff, isDir_iff (refers.shown pictured found), FileTree.isDir_iff, found]
  simp

end Modes

section Walk

variable {resolve : Nat → Nat → FsM (Except Errno Nat)} {expand : Nat → Nat → Option Nat}

/-- What was reached stays when another reference is given back. -/
theorem put_leads {target : Option Nat} {r : Except Errno Nat} (leads : Leads disk t w₀ (o :: held) target r w) :
    Meets disk allowed (Inode.put o) (fun _ w' => Leads disk t w₀ held target r w') w := by
  obtain ⟨view, pictured, reached⟩ := leads
  cases target with
  | none =>
    obtain ⟨failed, goes⟩ := reached
    refine (put_goes pictured goes).mono ?_
    rintro _ w' ⟨pictured', goes', -⟩
    exact ⟨view, pictured', failed, goes'⟩
  | some ino =>
    obtain ⟨inTree, o', rfl, goes, refers⟩ := reached
    refine (put_goes pictured (goes.perm (.swap _ _ _))).mono ?_
    rintro _ w' ⟨pictured', goes', -, still⟩
    exact ⟨view, pictured', inTree, o', rfl, goes', still o' ino (.head _) refers⟩

theorem Leads.after {target : Option Nat} {r : Except Errno Nat} (goes : Goes w₀ w held)
    (leads : Leads disk t w [] target r w') : Leads disk t w₀ held target r w' := by
  obtain ⟨view', pictured, reached⟩ := leads
  refine ⟨view', pictured, ?_⟩
  cases target with
  | none => exact ⟨reached.1, goes.none reached.2⟩
  | some ino =>
    obtain ⟨inTree, o', same, goes', refers⟩ := reached
    exact ⟨inTree, o', same, goes.more goes', refers⟩

theorem follow_leads (expands : Expands disk t allowed resolve expand) (pictured : Pictures disk t w view)
    (rooted : Rooted t w) (refersDir : Refers w dir at_) (isDir : t.isDir at_ = true) (refers : Refers w o ino)
    (inTree : (t.node ino).isSome) (goes : Goes w₀ w (o :: held)) {follows : Bool}
    (only : follows = true → ∃ target, t.node ino = some (.link target)) :
    Meets disk allowed (follow resolve o dir follows)
      (Leads disk t w₀ held (if follows then expand at_ ino else some ino)) w := by
  unfold follow
  cases follows with
  | false => exact ⟨view, pictured, inTree, o, rfl, goes, refers⟩
  | true =>
    obtain ⟨target, link⟩ := only rfl
    simp only [if_true]
    refine meets_bind.mpr ((expands pictured rooted refersDir isDir refers link).mono fun r w₁ led => ?_)
    exact meets_bind.mpr ((put_leads (led.after goes)).mono fun _ w₂ led => led)

end Walk

section Steps

/-- What the second step leaves of a path: one name at most, and slashes behind it. -/
structure Final (path : PathName) : Prop where
  start : path.head? ≠ some slash
  ends : hasSlash path = false ∨ next path = []

theorem Final.pieces {path : PathName} (final : Final path) :
    pieces path = if component path = [] then [] else [component path] := by
  cases slashed : hasSlash path with
  | true =>
    have done : next path = [] := final.ends.resolve_left (by simp [slashed])
    have nonempty : path ≠ [] := by
      rintro rfl
      cases slashed
    have named := component_ne_nil nonempty final.start
    rw [pieces_of_hasSlash slashed named, done, pieces_nil, if_neg named]
  | false =>
    rw [component_of_not_hasSlash slashed]
    split
    · rename_i empty
      rw [empty, pieces_nil]
    · rename_i nonempty
      exact pieces_of_not_hasSlash slashed nonempty

theorem Final.slash {path : PathName} (final : Final path) : hasSlash path = (path.getLast? == some slash) := by
  cases slashed : hasSlash path with
  | true =>
    rw [(getLast_next slashed).1 (final.ends.resolve_left (by simp [slashed]))]
    rfl
  | false => exact (beq_eq_false_iff_ne.mpr (getLast_of_not_hasSlash slashed)).symm

/-- Where a path leads from a directory. -/
def reach (t : SlotTree) (expand : Nat → Nat → Option Nat) (last : Bool) (dir : Nat) (path : PathName) :
    Option Nat :=
  (t.walk expand last dir ((pieces path).map moveOf)).bind fun i =>
    if (path.getLast? == some slash) && !t.isDir i then none else some i

/-- A path that leads to something other than a directory has no slash behind it. -/
theorem Final.noSlash {expand : Nat → Nat → Option Nat} {last : Bool} {dir ino : Nat} {path : PathName}
    (final : Final path) (led : reach t expand last dir path = some ino) (plain : t.isDir ino = false) :
    hasSlash path = false := by
  unfold reach at led
  obtain ⟨i, -, checked⟩ := Option.bind_eq_some_iff.mp led
  rw [final.slash]
  by_contra slash
  split at checked
  · cases checked
  · rename_i inside
    obtain rfl := Option.some.inj checked
    refine inside ?_
    rw [plain, Bool.not_false, Bool.and_true]
    simpa using slash

/-- What is no link leads to itself. -/
def Keeps (t : SlotTree) (expand : Nat → Nat → Option Nat) : Prop :=
  ∀ dir i, (∀ target, t.node i ≠ some (.link target)) → expand dir i = some i

variable {resolve : Nat → Nat → FsM (Except Errno Nat)} {expand : Nat → Nat → Option Nat} {last : Bool}
  {path : PathName}

theorem Keeps.of_isDir (keeps : VFS.Keeps t expand) (isDir : t.isDir ino = true) : expand at_ ino = some ino := by
  obtain ⟨parent, entries, found⟩ := FileTree.isDir_iff.mp isDir
  exact keeps at_ ino fun target link => by simp [found] at link

theorem enter_stay (isDir : t.isDir at_ = true) : t.enter at_ (moveOf dotName) = some at_ := by
  obtain ⟨parent, entries, found⟩ := FileTree.isDir_iff.mp isDir
  simp [FileTree.enter, moveOf, found]

theorem Final.reach_stays (final : Final path) (keeps : VFS.Keeps t expand) (isDir : t.isDir at_ = true)
    (stays : component path = [] ∨ component path = dotName) : reach t expand last at_ path = some at_ := by
  unfold reach
  rw [final.pieces]
  rcases stays with empty | dot
  · simp [empty, FileTree.walk, isDir]
  · rw [dot, if_neg (by decide)]
    simp [FileTree.walk, enter_stay isDir, keeps.of_isDir isDir, isDir]

theorem Final.reach_enters (final : Final path) (named : component path ≠ []) : reach t expand last at_ path =
    ((t.enter at_ (moveOf (component path))).bind fun i => if last then expand at_ i else some i).bind fun i =>
      if hasSlash path && !t.isDir i then none else some i := by
  unfold reach
  rw [final.slash, final.pieces, if_neg named]
  rfl

theorem null_notMem_component (noNull : 0 ∉ path) : 0 ∉ component path := fun member =>
  noNull ((List.takeWhile_sublist _).subset member)

/-- The last check: whether what was reached has to be a directory. -/
theorem check_leads {target : Option Nat} {r : Except Errno Nat} {mustBeDir : Bool} {e : Errno}
    (leads : Leads disk t w₀ held target r w) :
    Meets disk allowed (match r with
      | .error e => Pure.pure (.error e)
      | .ok inode => do
        let i ← FsM.inode inode
        if mustBeDir && !Mode.isDir i.mode then do
          Inode.put inode
          Pure.pure (.error e)
        else Pure.pure (.ok inode))
      (Leads disk t w₀ held (target.bind fun i => if mustBeDir && !t.isDir i then none else some i)) w := by
  obtain ⟨view, pictured, reached⟩ := leads
  cases target with
  | none =>
    obtain ⟨⟨e, rfl⟩, goes⟩ := reached
    exact ⟨view, pictured, ⟨e, rfl⟩, goes⟩
  | some ino =>
    obtain ⟨inTree, o, rfl, goes, refers⟩ := reached
    obtain ⟨node, found⟩ := Option.isSome_iff_exists.mp inTree
    simp only [Option.bind_some]
    rw [meets_bind, meets_inode (refers.live pictured), refers.isDir_eq pictured found]
    split
    · refine meets_bind.mpr ((put_goes pictured goes).mono ?_)
      rintro _ w' ⟨pictured', goes', -⟩
      exact ⟨view, pictured', ⟨e, rfl⟩, goes'⟩
    · exact ⟨view, pictured, inTree, o, rfl, goes, refers⟩

/-- Where a name leads, with its link expanded if it is one that has to be. -/
theorem enter_leads {α : Type} (last : Bool) (missing : Errno → Errno) (none : Errno)
    (rest : Except Errno Nat → FsM (Except Errno α)) (post : Except Errno α → World Fs → Prop)
    (reliable : Reliable disk) (wellFormed : t.WellFormed)
    (expands : Expands disk t allowed resolve expand) (keeps : VFS.Keeps t expand) (noNull : 0 ∉ name)
    (noDot : name ≠ dotName) (pictured : Pictures disk t w view) (rooted : Rooted t w) (refers : Refers w dir at_)
    (isDir : t.isDir at_ = true) (goes : Goes w₀ w (dir :: held))
    (failed : ∀ e w', t.enter at_ (moveOf name) = Option.none → Leads disk t w₀ held Option.none (.error e) w' →
      post (.error e) w')
    (reached : ∀ r w', Leads disk t w₀ held ((t.enter at_ (moveOf name)).bind fun i =>
      if last then expand at_ i else some i) r w' → Meets disk allowed (rest r) post w') :
    Meets disk allowed (do
      match ← lookup dir name with
      | .error e => do
        Inode.put dir
        Pure.pure (.error (missing e))
      | .ok Option.none => do
        Inode.put dir
        Pure.pure (.error none)
      | .ok (some inode) => do
        let i ← FsM.inode inode
        let target ← follow resolve inode dir (last && Mode.isLnk i.mode)
        Inode.put dir
        rest target) post w := by
  obtain ⟨parent, entries, found⟩ := FileTree.isDir_iff.mp isDir
  rw [meets_bind]
  refine (lookup_leads reliable wellFormed pictured found refers noNull noDot).mono ?_
  intro r w₁ looked
  cases entered : t.enter at_ (moveOf name) with
  | none =>
    rw [entered] at looked
    obtain ⟨rfl, view₁, pictured₁, goes₁⟩ := looked
    have led : Leads disk t w₀ (dir :: held) .none (.error none) w₁ :=
      ⟨view₁, pictured₁, ⟨_, rfl⟩, goes.none goes₁⟩
    exact meets_bind.mpr ((put_leads led).mono fun _ w' led => failed _ w' entered led)
  | some ino =>
    rw [entered] at looked reached
    obtain ⟨o, rfl, view₁, pictured₁, goes₁, -, refers₁⟩ := looked
    obtain ⟨node, found₁⟩ := enter_node wellFormed _ entered
    have both : Goes w₀ w₁ (o :: dir :: held) := goes.more goes₁
    have lnk := isLnk_iff (refers₁.shown pictured₁ found₁)
    have target : (if last && Mode.isLnk (w₁.state.inodes o).mode then expand at_ ino else some ino) =
        if last then expand at_ ino else some ino := by
      cases last with
      | false => rfl
      | true =>
        cases isLnk : Mode.isLnk (w₁.state.inodes o).mode with
        | true => rfl
        | false =>
          refine (keeps at_ ino fun target link => ?_).symm
          obtain rfl := Option.some.inj (found₁.symm.trans link)
          simp [lnk.mpr ⟨target, rfl⟩] at isLnk
    rw [meets_bind, meets_inode (refers₁.live pictured₁), meets_bind]
    refine (follow_leads expands pictured₁ (goes₁.rooted rooted) (goes₁.refers refers) isDir refers₁
      (by simp [found₁]) both fun follows => ?_).mono fun r w₂ led => ?_
    · obtain ⟨target, rfl⟩ := lnk.mp (Bool.and_eq_true_iff.mp follows).2
      exact ⟨target, found₁⟩
    · rw [target] at led
      exact meets_bind.mpr ((put_leads led).mono fun _ w₃ led => reached r w₃ led)

theorem pathwalkStep3_leads (reliable : Reliable disk) (wellFormed : t.WellFormed)
    (expands : Expands disk t allowed resolve expand) (keeps : VFS.Keeps t expand) {path : Path}
    (final : Final path.pathname) (noNull : 0 ∉ path.pathname) (pictured : Pictures disk t w view) (rooted : Rooted t w)
    (refers : Refers w path.curDir at_) (isDir : t.isDir at_ = true) (goes : Goes w₀ w (path.curDir :: held)) :
    Meets disk allowed (pathwalkStep3 resolve path last)
      (Leads disk t w₀ held (reach t expand last at_ path.pathname)) w := by
  unfold pathwalkStep3
  by_cases stays : component path.pathname = [] ∨ component path.pathname = dotName
  · rw [final.reach_stays keeps isDir stays]
    simp only [if_pos stays]
    obtain ⟨parent, entries, found⟩ := FileTree.isDir_iff.mp isDir
    exact ⟨view, pictured, by simp [found], path.curDir, rfl, goes, refers⟩
  · simp only [if_neg stays]
    rw [not_or] at stays
    rw [final.reach_enters stays.1]
    refine enter_leads _ (fun _ => .enoent) _ _ _ reliable wellFormed expands keeps (null_notMem_component noNull)
      stays.2 pictured rooted refers isDir goes (fun e w' entered led => ?_) fun r w' led => check_leads led
    rw [entered]
    exact led

/-- A walk is in a directory, with the rest of its path. -/
structure Stands (disk : Disk Errno) (t : SlotTree) (w₀ : World Fs) (held : List Nat) (at_ : Nat)
    (path : Path) (w : World Fs) : Prop where
  pictured : ∃ view, Pictures disk t w view
  refers : Refers w path.curDir at_
  isDir : t.isDir at_ = true
  goes : Goes w₀ w (path.curDir :: held)
  start : path.pathname.head? ≠ some slash
  noNull : 0 ∉ path.pathname

theorem mem_of_mem_next {c : UInt8} (member : c ∈ next path) : c ∈ path :=
  List.mem_of_mem_drop (mem_of_mem_skipSlashes member)

theorem Stands.next {path : Path} (stands : Stands disk t w₀ held at_ path w) :
    Stands disk t w₀ held at_ { path with pathname := next path.pathname } w :=
  ⟨stands.pictured, stands.refers, stands.isDir, stands.goes, head_skipSlashes _,
    fun member => stands.noNull (mem_of_mem_next member)⟩

theorem pieces_ne_nil (nonempty : path ≠ []) (start : path.head? ≠ some slash) : pieces path ≠ [] := by
  cases slashed : hasSlash path with
  | true =>
    rw [pieces_of_hasSlash slashed (component_ne_nil nonempty start)]
    exact List.cons_ne_nil _ _
  | false =>
    rw [pieces_of_not_hasSlash slashed nonempty]
    exact List.cons_ne_nil _ _

/-- Where a path of several names leads. -/
theorem reach_next (slashed : hasSlash path = true) (start : path.head? ≠ some slash) (more : next path ≠ [])
    (expand : Nat → Nat → Option Nat) (last : Bool) (at_ : Nat) :
    reach t expand last at_ path = ((t.enter at_ (moveOf (component path))).bind (expand at_)).bind fun i =>
      if t.isDir i then reach t expand last i (next path) else none := by
  have nonempty : path ≠ [] := by
    rintro rfl
    cases slashed
  have rest := pieces_ne_nil more (head_skipSlashes _)
  unfold reach
  rw [pieces_of_hasSlash slashed (component_ne_nil nonempty start), (getLast_next slashed).2 more]
  obtain ⟨name, names, eq⟩ := List.exists_cons_of_ne_nil rest
  rw [eq, List.map_cons, List.map_cons, FileTree.walk.eq_3 _ _ _ _ _ _ (List.cons_ne_nil _ _), Option.bind_assoc]
  refine Option.bind_congr fun i _ => ?_
  split
  · rfl
  · rfl

/-- What the second step returns: where the rest of the path starts, with a goal that is the same
from there on. -/
def Arrives (disk : Disk Errno) (t : SlotTree) (expand : Nat → Nat → Option Nat) (w₀ : World Fs)
    (held : List Nat) (goal : Bool → Option Nat) (r : Except Errno Path) (w : World Fs) : Prop :=
  match r with
  | .error e => (∀ last, goal last = none) ∧ Leads disk t w₀ held none (.error e) w
  | .ok path => Final path.pathname ∧ ∃ at_, Stands disk t w₀ held at_ path w ∧
    ∀ last, goal last = reach t expand last at_ path.pathname

theorem Arrives.step {goal goal' : Bool → Option Nat} {r : Except Errno Path}
    (same : ∀ last, goal last = goal' last) (arrives : Arrives disk t expand w₀ held goal' r w) :
    Arrives disk t expand w₀ held goal r w := by
  rwa [show goal = goal' from funext same]

theorem pathwalkStep2_arrives (reliable : Reliable disk) (wellFormed : t.WellFormed)
    (expands : Expands disk t allowed resolve expand) (keeps : VFS.Keeps t expand) (rooted : Rooted t w₀) (fuel : Nat) :
    ∀ {path : Path} {w at_}, path.pathname.length < fuel → Stands disk t w₀ held at_ path w →
      Meets disk allowed (pathwalkStep2 resolve fuel path)
        (Arrives disk t expand w₀ held fun last => reach t expand last at_ path.pathname) w := by
  induction fuel with
  | zero => exact fun short => absurd short (Nat.not_lt_zero _)
  | succ fuel ih =>
    intro path w at_ short stands
    obtain ⟨view, pictured⟩ := stands.pictured
    unfold pathwalkStep2
    by_cases slashed : hasSlash path.pathname = true
    swap
    · simp only [slashed, Bool.not_false, if_true]
      exact ⟨⟨stands.start, .inl (by simpa using slashed)⟩, at_, stands, fun _ => rfl⟩
    have rest : skipSlashes (path.pathname.drop (component path.pathname).length) = next path.pathname := rfl
    have shorter : (next path.pathname).length < fuel :=
      Nat.lt_of_lt_of_le (next_shorter path.pathname slashed) (Nat.le_of_lt_succ short)
    simp only [slashed, Bool.not_true, Bool.false_eq_true, if_false, rest]
    by_cases done : next path.pathname = []
    · rw [if_pos done]
      exact ⟨⟨stands.start, .inr done⟩, at_, stands, fun _ => rfl⟩
    rw [if_neg done]
    have further := fun last => reach_next (t := t) slashed stands.start done expand last at_
    have stay : t.enter at_ (moveOf (component path.pathname)) = some at_ →
        ∀ last, reach t expand last at_ path.pathname = reach t expand last at_ (next path.pathname) := by
      intro same last
      rw [further, same, Option.bind_some, keeps.of_isDir stands.isDir, Option.bind_some, if_pos stands.isDir]
    by_cases dot : component path.pathname = dotName
    · rw [if_pos dot]
      refine (ih shorter stands.next).mono fun r w' arrives => arrives.step (stay ?_)
      rw [dot]
      exact enter_stay stands.isDir
    rw [if_neg dot, meets_bind, meets_get]
    by_cases top : component path.pathname = dotDotName ∧ path.curDir = w.state.rootInode
    · rw [if_pos top]
      refine (ih shorter stands.next).mono fun r w' arrives => arrives.step (stay ?_)
      have here := stands.goes.rooted rooted
      unfold Rooted at here
      rw [← top.2] at here
      obtain rfl : at_ = t.root := stands.refers.ino.symm.trans here.ino
      obtain ⟨entries, root⟩ := wellFormed.root
      rw [top.1]
      simp [FileTree.enter, moveOf, root, dotDotName, dotName]
    rw [if_neg top]
    have enters := enter_leads true id .enoent (fun target => match target with
        | .error e => Pure.pure (.error e)
        | .ok inode => do
          let i ← FsM.inode inode
          if Mode.isDir i.mode then pathwalkStep2 resolve fuel ⟨inode, next path.pathname⟩
          else do
            Inode.put inode
            Pure.pure (.error .enotdir))
      (Arrives disk t expand w₀ held fun last => reach t expand last at_ path.pathname) reliable wellFormed expands keeps
      (null_notMem_component stands.noNull) dot pictured (stands.goes.rooted rooted) stands.refers stands.isDir stands.goes
    simp only [Bool.true_and, id_eq, if_true] at enters
    refine enters (fun e w' entered led => ⟨fun last => ?_, led⟩) fun r w' led => ?_
    · dsimp only
      rw [further, entered]
      rfl
    obtain ⟨view', pictured', reached⟩ := led
    cases reaches : (t.enter at_ (moveOf (component path.pathname))).bind fun i => expand at_ i with
    | none =>
      rw [reaches] at reached
      obtain ⟨⟨e, rfl⟩, goes⟩ := reached
      refine meets_pure.mpr ⟨fun last => ?_, view', pictured', ⟨e, rfl⟩, goes⟩
      dsimp only
      rw [further, reaches]
      rfl
    | some ino =>
      rw [reaches] at reached
      obtain ⟨inTree, o, rfl, goes, refers⟩ := reached
      obtain ⟨node, found⟩ := Option.isSome_iff_exists.mp inTree
      dsimp only
      rw [meets_bind, meets_inode (refers.live pictured'), refers.isDir_eq pictured' found]
      by_cases isDir : t.isDir ino = true
      · rw [if_pos isDir]
        have stands' : Stands disk t w₀ held ino ⟨o, next path.pathname⟩ w' :=
          ⟨⟨view', pictured'⟩, refers, isDir, goes, stands.next.start, stands.next.noNull⟩
        refine (ih shorter stands').mono fun r w'' arrives => arrives.step fun last => ?_
        rw [further, reaches, Option.bind_some, if_pos isDir]
      · rw [if_neg isDir]
        refine meets_bind.mpr ((put_goes pictured' goes).mono ?_)
        rintro _ w'' ⟨pictured'', goes', -⟩
        refine meets_pure.mpr ⟨fun last => ?_, view', pictured'', ⟨_, rfl⟩, goes'⟩
        dsimp only
        rw [further, reaches, Option.bind_some, if_neg isDir]

theorem isDir_root (wellFormed : t.WellFormed) : t.isDir t.root = true := by
  obtain ⟨entries, root⟩ := wellFormed.root
  exact FileTree.isDir_iff.mpr ⟨_, _, root⟩

/-- An absolute path leads from the root, wherever the walk starts. -/
theorem lead_absolute (wellFormed : t.WellFormed) {cwd : Nat} (absolute : path.head? = some slash) :
    t.lead expand cwd (routeOf path) last = reach t expand last t.root (skipSlashes path) := by
  have route : routeOf path = ⟨true, (pieces (skipSlashes path)).map moveOf, path.getLast? == some slash⟩ := by
    rw [routeOf, absolute, pieces_skipSlashes]
    rfl
  unfold FileTree.lead reach
  rw [route, if_neg (by simp)]
  by_cases nothing : skipSlashes path = []
  · simp [nothing, FileTree.walk, isDir_root wellFormed]
  · rw [(getLast_skipSlashes path).2 nothing]
    rfl

theorem lead_relative {cwd : Nat} (nonempty : path ≠ []) (relative : path.head? ≠ some slash) :
    t.lead expand cwd (routeOf path) last = reach t expand last cwd path := by
  have route : routeOf path = ⟨false, (pieces path).map moveOf, path.getLast? == some slash⟩ := by
    rw [routeOf, beq_eq_false_iff_ne.mpr relative]
  have moves := pieces_ne_nil nonempty relative
  unfold FileTree.lead reach
  rw [route, if_neg (by simpa using moves)]
  rfl

/-- The first two steps lead to the directory of the last name. -/
theorem pathwalkStep12With_arrives (reliable : Reliable disk) (wellFormed : t.WellFormed)
    (expands : Expands disk t allowed resolve expand) (keeps : VFS.Keeps t expand) (pictured : Pictures disk t w view)
    (rooted : Rooted t w) {cwd : Option Nat} (refers : Refers w (cwd.getD w.state.rootInode) at_)
    (isDir : t.isDir at_ = true) (noNull : 0 ∉ path) : Meets disk allowed (pathwalkStep12With resolve path cwd)
      (Arrives disk t expand w [] fun last => t.lead expand at_ (routeOf path) last) w := by
  unfold pathwalkStep12With
  rw [meets_bind]
  unfold pathwalkStep1
  rw [meets_bind, meets_get, pictured.mounted]
  simp only [Bool.not_true, Bool.false_eq_true, if_false]
  cases path with
  | nil => exact ⟨fun _ => rfl, view, pictured, ⟨_, rfl⟩, .refl w⟩
  | cons c rest =>
    -- the walk starts with a reference to the root or to the working directory
    have starts : ∀ {dir at_' path'}, Refers w dir at_' → t.isDir at_' = true → path'.head? ≠ some slash → 0 ∉ path' →
        Meets disk allowed (Inode.get dir) (fun _ w₁ => Stands disk t w [] at_' ⟨dir, path'⟩ w₁) w := by
      intro dir at_' path' here isDir' start noNull'
      refine (get_obtains pictured here.cached).mono ?_
      rintro _ w₁ ⟨view₁, pictured₁, goes₁, -, refers₁⟩
      exact ⟨⟨view₁, pictured₁⟩, here.ino ▸ refers₁, isDir', goes₁, start, noNull'⟩
    by_cases absolute : c = slash
    · simp only [if_pos absolute, meets_bind]
      refine (starts rooted (isDir_root wellFormed) (head_skipSlashes _) fun member =>
        noNull (mem_of_mem_skipSlashes member)).mono fun _ w₁ stands => ?_
      refine (pathwalkStep2_arrives reliable wellFormed expands keeps rooted _ (Nat.lt_succ_self _) stands).mono ?_
      exact fun r w' arrives => arrives.step fun last => lead_absolute wellFormed (by rw [absolute]; rfl)
    · simp only [if_neg absolute, meets_bind]
      refine (starts refers isDir (by simpa using absolute) noNull).mono fun _ w₁ stands => ?_
      refine (pathwalkStep2_arrives reliable wellFormed expands keeps rooted _ (Nat.lt_succ_self _) stands).mono ?_
      exact fun r w' arrives => arrives.step fun last => lead_relative (List.cons_ne_nil _ _) (by simpa using absolute)

/-- The third step leads where the whole path leads. -/
theorem Stands.leads {path : Path} (stands : Stands disk t w₀ held at_ path w) (final : Final path.pathname)
    (reliable : Reliable disk) (wellFormed : t.WellFormed) (expands : Expands disk t allowed resolve expand)
    (keeps : VFS.Keeps t expand) (rooted : Rooted t w₀) : Meets disk allowed (pathwalkStep3 resolve path last)
      (Leads disk t w₀ held (reach t expand last at_ path.pathname)) w := by
  obtain ⟨⟨view, pictured⟩, refers, isDir, goes, -, noNull⟩ := stands
  exact pathwalkStep3_leads reliable wellFormed expands keeps final noNull pictured (goes.rooted rooted) refers isDir goes

theorem pathwalkStep123With_leads (reliable : Reliable disk) (wellFormed : t.WellFormed)
    (expands : Expands disk t allowed resolve expand) (keeps : VFS.Keeps t expand) (pictured : Pictures disk t w view)
    (rooted : Rooted t w) {cwd : Option Nat} (refers : Refers w (cwd.getD w.state.rootInode) at_)
    (isDir : t.isDir at_ = true) (noNull : 0 ∉ path) : Meets disk allowed (pathwalkStep123With resolve path cwd last)
      (Leads disk t w [] (t.lead expand at_ (routeOf path) last)) w := by
  refine meets_bind.mpr ((pathwalkStep12With_arrives reliable wellFormed expands keeps pictured rooted refers isDir
    noNull).mono fun r w₁ arrives => ?_)
  cases r with
  | error e =>
    have nowhere : t.lead expand at_ (routeOf path) last = none := arrives.1 last
    rw [nowhere]
    exact arrives.2
  | ok path' =>
    obtain ⟨final, at_', stands, same⟩ := arrives
    have goal : t.lead expand at_ (routeOf path) last = _ := same last
    rw [goal]
    exact stands.leads final reliable wellFormed expands keeps rooted

theorem keeps_expand (t : SlotTree) (depth : Nat) : VFS.Keeps t (t.expand depth) :=
  fun _ _ noLink => FileTree.expand_self noLink

/-- A link that is not nested too deeply leads where its route leads. -/
theorem expands_resolveSymlink (reliable : Reliable disk) (wellFormed : t.WellFormed) (depth : Nat) :
    Expands disk t allowed (resolveSymlink depth) (t.expand depth) := by
  induction depth with
  | zero =>
    intro w view dir at_ link ino target pictured rooted _ _ _ found
    have eq : t.expand 0 at_ ino = none := by simp [FileTree.expand, found]
    rw [eq]
    exact ⟨view, pictured, ⟨_, rfl⟩, .refl w⟩
  | succ depth ih =>
    intro w view dir at_ link ino target pictured rooted refers isDir refersLink found
    have eq : t.expand (depth + 1) at_ ino = t.lead (t.expand depth) at_ target true := by simp [FileTree.expand, found]
    have shows : ShowsLink w.state view (Safe w.state view) (w.state.inodes link) target :=
      (refersLink.shown pictured found).depicts
    have bytes := (pictured.sameContents _).bytesOf shows.toOnDisk
    unfold resolveSymlink
    rw [meets_bind, eq]
    refine ((getLink_reads reliable (shows.toOnDisk.valid pictured.formed (refersLink.live pictured)) shows.small).and_after
      ((peeks_getLink link).after (Nat.le_refl _))).mono ?_
    rintro r ⟨s₁, d₁⟩ ⟨⟨state, -, rfl⟩, -, -, peeked⟩
    obtain rfl : s₁ = w.state := state
    have pictured₁ : Pictures disk t ⟨w.state, d₁⟩ view := pictured.device rfl (pictured.stored.peeked rfl peeked)
    have goes₁ : Goes w ⟨w.state, d₁⟩ [] := .of_state rfl
    rw [bytes, ← shows.target]
    have refers₁ : Refers ⟨w.state, d₁⟩ ((some dir).getD w.state.rootInode) at_ := goes₁.refers refers
    exact (pathwalkStep123With_leads reliable wellFormed ih (keeps_expand t depth) pictured₁ (goes₁.rooted rooted) refers₁
      isDir fun member => by
        simpa using List.mem_takeWhile_imp member).mono fun r w' led => led.after goes₁

end Steps

/-- Where a path leads from the working directory. -/
theorem pathwalkStep123_leads (reliable : Reliable disk) (wellFormed : t.WellFormed) (pictured : Pictures disk t w view)
    (rooted : Rooted t w) (refers : Refers w (w.state.cwd.getD w.state.rootInode) at_) (isDir : t.isDir at_ = true)
    {path : PathName} (noNull : 0 ∉ path) (follow : Bool) : Meets disk allowed (pathwalkStep123 path follow)
      (Leads disk t w [] (t.resolve maxDepth at_ (routeOf path) follow)) w := by
  unfold pathwalkStep123
  rw [meets_bind, meets_get]
  exact pathwalkStep123With_leads reliable wellFormed (expands_resolveSymlink reliable wellFormed maxDepth)
    (keeps_expand t maxDepth) pictured rooted refers isDir noNull

end MPStuBS.VFS
