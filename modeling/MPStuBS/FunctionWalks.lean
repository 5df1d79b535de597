import MPStuBS.MinixNames

/-! What the functions of the file system consist of. A property of programs that sequencing keeps
and that the single steps have is one of the functions that are made of these steps. -/
namespace MPStuBS

open FsM

/-- A property of programs, together with one of what they return. The program may release the blocks
which are its `own`, as those are that it has fixed, and change those that are `mine`, as those of the
bitmaps are, and it may end with the faults of `stops`. -/
structure FsM.Property where
  holds : (α : Type) → FsM α → (α → Prop) → Prop
  own : Nat → Prop
  mine : Nat → Prop
  stops : FsFault → Prop

/-- The program has the property, and what it returns has its own. -/
def Gives (K : FsM.Property) {α : Type} (p : FsM α) (post : α → Prop) : Prop := K.holds α p post

abbrev Has (K : FsM.Property) {α : Type} (p : FsM α) : Prop := Gives K p fun _ => True

/-- The blocks of the bitmaps are among these. -/
def Maps (mine : Nat → Prop) (s : Fs) : Prop := (∀ i, mine (s.imap i)) ∧ ∀ i, mine (s.zmap i)

theorem maps_all (s : Fs) : Maps (fun _ => True) s := ⟨fun _ => trivial, fun _ => trivial⟩

/-- The fields that decide about the life of an inode object. -/
structure Inode.Kept (i j : Inode) : Prop where
  ino : j.ino = i.ino
  mode : j.mode = i.mode
  refcount : j.refcount = i.refcount
  new : j.new = i.new
  deleted : j.deleted = i.deleted

theorem Inode.Kept.refl (i : Inode) : i.Kept i := ⟨rfl, rfl, rfl, rfl, rfl⟩

theorem Inode.Kept.trans {i j k : Inode} (fst : i.Kept j) (snd : j.Kept k) : i.Kept k :=
  ⟨snd.ino.trans fst.ino, snd.mode.trans fst.mode, snd.refcount.trans fst.refcount,
    snd.new.trans fst.new, snd.deleted.trans fst.deleted⟩

/-- Only the zones and the dirty mark differ. -/
def Inode.Remapped (i j : Inode) : Prop := ∃ data dirty, j = { i with data := data, dirty := dirty }

theorem Inode.Remapped.refl (i : Inode) : i.Remapped i := ⟨_, _, rfl⟩

theorem Inode.Remapped.trans {i j k : Inode} : i.Remapped j → j.Remapped k → i.Remapped k := by
  rintro ⟨data, dirty, rfl⟩ ⟨data', dirty', rfl⟩
  exact ⟨data', dirty', rfl⟩

theorem Inode.Remapped.kept {i j : Inode} : i.Remapped j → i.Kept j := by
  rintro ⟨data, dirty, rfl⟩
  exact ⟨rfl, rfl, rfl, rfl, rfl⟩

/-- The steps that only look at the state and at blocks. Of the faults only `endless`, which loops
alone end with, may be excluded. -/
class Looks (K : FsM.Property) : Prop where
  pure : ∀ {α : Type} {a : α} {post : α → Prop}, post a → Gives K (Pure.pure a : FsM α) post
  bind : ∀ {α β : Type} {p : FsM α} {f : α → FsM β} {first : α → Prop} {post : β → Prop},
    Gives K p first → (∀ a, first a → Gives K (f a) post) → Gives K (p >>= f) post
  fault : ∀ {α : Type} {f : FsFault} {post : α → Prop}, K.stops f → Gives K (FsM.fault f : FsM α) post
  others : ∀ {f : FsFault}, f ≠ .endless → K.stops f
  get : Gives K FsM.get (Maps K.mine)
  fix : ∀ {n : Nat}, Gives K (FsM.fix n) fun r => ∀ b, r = .ok b → K.own b
  peek : ∀ {α : Type} {b : Nat} {k : Option Bytes → FsM α} {post : α → Prop},
    (∀ r, Gives K (k r) post) → Gives K (Prog.load b k) post
  unfix : ∀ {b : Nat}, K.own b → Has K (FsM.unfix b)

/-- The steps that change blocks and the zones of inode objects. -/
class Changes (K : FsM.Property) : Prop extends Looks K where
  store : ∀ {b : Nat} {bytes : Bytes}, K.own b ∨ K.mine b → Has K (FsM.store b bytes)
  markDirty : ∀ {b : Nat}, K.own b ∨ K.mine b → Has K (FsM.markDirty b)
  forget : ∀ {b : Nat}, K.own b → Has K (FsM.forget b)
  remap : ∀ {ptr : Nat} {f : Inode → Inode}, (∀ i : Inode, i.Remapped (f i)) → Has K (FsM.setInode ptr f)

/-- The steps that change the other contents of inode objects. -/
class Fills (K : FsM.Property) : Prop extends Changes K where
  fill : ∀ {ptr : Nat} {f : Inode → Inode}, (∀ i : Inode, i.Kept (f i)) → Has K (FsM.setInode ptr f)

variable {K : FsM.Property} {α β : Type}

section Looking

variable [Looks K]

theorem Gives.pure {a : α} {post : α → Prop} (holds : post a) : Gives K (Pure.pure a : FsM α) post := Looks.pure holds

theorem Gives.bind {p : FsM α} {f : α → FsM β} {first : α → Prop} {post : β → Prop} (h : Gives K p first)
    (next : ∀ a, first a → Gives K (f a) post) : Gives K (p >>= f) post := Looks.bind h next

omit [Looks K] in
theorem Gives.ite {c : Prop} [Decidable c] {p q : FsM α} {post : α → Prop} (fst : Gives K p post)
    (snd : Gives K q post) : Gives K (if c then p else q) post := by
  split
  · exact fst
  · exact snd

namespace Has

variable {b o : Nat}

theorem bind {p : FsM α} {f : α → FsM β} {post : β → Prop} (h : Has K p) (next : ∀ a, Gives K (f a) post) :
    Gives K (p >>= f) post := Gives.bind h fun a _ => next a

theorem fault {f : FsFault} {post : α → Prop} (other : f ≠ .endless) : Gives K (FsM.fault f : FsM α) post :=
  Looks.fault (Looks.others other)

theorem get : Has K FsM.get := Gives.bind (Looks.get (K := K)) fun _ _ => .pure trivial

theorem load : Has K (FsM.load b) := Looks.peek fun
  | none => Has.fault FsFault.noConfusion
  | some _ => .pure trivial

theorem inode : Has K (FsM.inode o) := Has.get.bind fun _ => .ite (Has.fault FsFault.noConfusion) (.pure trivial)

end Has

/-- Where every state may be set, so may every inode object. -/
theorem Looks.setInode (set : ∀ {s : Fs}, Maps K.mine s → Has K (FsM.set s)) {o : Nat} {f : Inode → Inode} :
    Has K (FsM.setInode o f) :=
  Looks.get.bind fun _ maps => .ite (Has.fault FsFault.noConfusion) (set maps)

end Looking

namespace Minix

variable {own : Nat → Prop}

/-- The entry lies in the inode or in an own block. -/
def Area.Own (own : Nat → Prop) (area : Area) : Prop := ∀ b, area = .block b → own b

theorem Area.own_inode : Area.Own own .inode := fun _ h => by cases h

theorem Area.own_block {b : Nat} (isOwn : own b) : Area.Own own (.block b) := by
  rintro _ ⟨⟩
  exact isOwn

/-- All blocks of the chain are own ones. -/
def OwnChain (own : Nat → Prop) (chain : List Indirect) : Prop := ∀ p ∈ chain, p.area.Own own

theorem own_nil : OwnChain own [] := fun _ member => by cases member

theorem OwnChain.cons {p : Indirect} {chain : List Indirect} (fst : p.area.Own own)
    (rest : OwnChain own chain) : OwnChain own (p :: chain) := by
  intro q member
  rcases List.mem_cons.mp member with rfl | later
  · exact fst
  · exact rest q later

theorem OwnChain.head {p : Indirect} {chain : List Indirect} (isOwn : OwnChain own (p :: chain)) :
    p.area.Own own := isOwn p (.head _)

theorem OwnChain.tail {p : Indirect} {chain : List Indirect} (isOwn : OwnChain own (p :: chain)) :
    OwnChain own chain := fun q later => isOwn q (.tail _ later)

theorem OwnChain.append {fst snd : List Indirect} (isOwn : OwnChain own fst) (isOwn' : OwnChain own snd) :
    OwnChain own (fst ++ snd) := fun p member =>
  (List.mem_append.mp member).elim (isOwn p) (isOwn' p)

section Looking

variable [Looks K]

theorem gives_rawInode (ino : Nat) : Gives K (rawInode ino) fun r => ∀ found, r = .ok found → K.own found.1 := by
  refine Has.get.bind fun _ => .ite (.pure (by simp)) (Looks.fix.bind fun r fixed => ?_)
  cases r with
  | error e => exact .pure (by simp)
  | ok block =>
    refine .pure ?_
    rintro found ⟨⟩
    exact fixed block rfl

theorem has_findFreeInode (k : Nat) : ∀ i, Has K (findFreeInode k i) := by
  induction k with
  | zero => exact fun _ => .pure trivial
  | succ k ih =>
    exact fun i => Has.get.bind fun _ => Has.load.bind fun _ => .ite (.pure trivial) (ih (i + 1))

theorem has_contains (ino : Nat) (cache : List Nat) : Has K (InodeCache.contains ino cache) := by
  induction cache with
  | nil => exact .pure trivial
  | cons cur rest ih => exact Has.inode.bind fun _ => .ite (.pure trivial) ih

theorem has_find (ino : Nat) (cache : List Nat) : Has K (InodeCache.find ino cache) := by
  induction cache with
  | nil => exact .pure trivial
  | cons cur rest ih => exact Has.inode.bind fun _ => .ite (.pure trivial) ih

theorem has_inodeMarked (ino : Nat) : Has K (inodeMarked ino) :=
  Has.get.bind fun _ => Looks.peek fun
    | none => .pure trivial
    | some _ => .pure trivial

theorem has_readEntry (ptr : Nat) (area : Area) (offset : Nat) : Has K (readEntry ptr area offset) := by
  cases area with
  | inode => exact Has.inode.bind fun _ => .ite (.pure trivial) (Has.fault FsFault.noConfusion)
  | block handle =>
    exact Has.get.bind fun _ => Has.load.bind fun _ => .ite (.pure trivial) (Has.fault FsFault.noConfusion)

theorem has_unfix {p : Indirect} (isOwn : p.area.Own K.own) : Has K p.unfix := by
  unfold Indirect.unfix
  split
  · exact .pure trivial
  · rename_i handle eq
    exact Looks.unfix (isOwn handle eq)

theorem has_unfixAll {chain : List Indirect} (isOwn : OwnChain K.own chain) : Has K (unfixAll chain) := by
  induction chain with
  | nil => exact .pure trivial
  | cons p rest ih => exact (has_unfix isOwn.head).bind fun _ => ih isOwn.tail

theorem has_verifyChain (ptr : Nat) (chain : List Indirect) : Has K (verifyChain ptr chain) := by
  induction chain with
  | nil => exact .pure trivial
  | cons p rest ih => exact (has_readEntry _ _ _).bind fun _ => .ite ih (.pure trivial)

theorem gives_followBranch (ptr : Nat) (path : List Nat) : ∀ {p : Indirect} {chain : List Indirect},
    p.area.Own K.own → OwnChain K.own chain →
    Gives K (followBranch ptr p chain path) fun branch => OwnChain K.own branch.chain := by
  induction path with
  | nil =>
    intro p chain fst rest
    refine .pure ?_
    split
    · exact OwnChain.cons fst rest
    · exact OwnChain.cons fst rest
  | cons offset path ih =>
    intro p chain fst rest
    have isOwn := OwnChain.cons fst rest
    refine .ite (.pure isOwn) (Looks.fix.bind fun r fixed => ?_)
    cases r with
    | error e => exact .pure isOwn
    | ok handle =>
      have later := fixed handle rfl
      exact (has_verifyChain _ _).bind fun _ => .ite ((has_readEntry _ _ _).bind fun _ =>
        ih (Area.own_block later) isOwn) ((Looks.unfix later).bind fun _ => .pure isOwn)

theorem gives_getBranch (ptr : Nat) (path : List Nat) :
    Gives K (getBranch ptr path) fun branch => OwnChain K.own branch.chain := by
  cases path with
  | nil => exact .pure own_nil
  | cons offset rest =>
    exact (has_readEntry _ _ _).bind fun _ => gives_followBranch _ _ Area.own_inode own_nil

theorem has_finish {chain : List Indirect} (isOwn : OwnChain K.own chain) : Has K (finish chain) := by
  refine (has_unfixAll isOwn).bind fun _ => ?_
  split
  · exact .pure trivial
  · exact .pure trivial

/-- Without allocation the loop is not repeated. -/
theorem has_getBlock_looking (ptr block : Nat) : Has K (getBlock ptr block false) :=
  Has.get.bind fun _ => (gives_getBranch _ _).bind fun
    | .found _, isOwn => has_finish isOwn
    | .missing _ _, isOwn => (has_unfixAll isOwn).bind fun _ => .pure trivial
    | .failed _ _ _, isOwn => (has_unfixAll isOwn).bind fun _ => .pure trivial

theorem has_allZeroes (ptr : Nat) (area : Area) (k : Nat) : Has K (allZeroes ptr area k) := by
  induction k with
  | zero => exact .pure trivial
  | succ k ih => exact (has_readEntry _ _ _).bind fun _ => .ite ih (.pure trivial)

theorem gives_rise (ptr : Nat) (chain : List Indirect) : ∀ {left}, OwnChain K.own left → OwnChain K.own chain →
    Gives K (rise ptr left chain) fun r => OwnChain K.own r.1 ∧ OwnChain K.own r.2 := by
  induction chain with
  | nil => exact fun left _ => .pure ⟨left, own_nil⟩
  | cons p chain ih =>
    intro left ownLeft isOwn
    cases chain with
    | nil => exact .pure ⟨ownLeft, isOwn⟩
    | cons q chain =>
      simp only [rise]
      exact (has_allZeroes _ _ _).bind fun _ => .ite
        (ih (ownLeft.append (OwnChain.cons isOwn.head own_nil)) isOwn.tail) (.pure ⟨ownLeft, isOwn⟩)

theorem has_dirBlockLastByte (dir lblock : Nat) : Has K (dirBlockLastByte dir lblock) :=
  Has.get.bind fun _ => Has.inode.bind fun _ => .ite (Has.fault FsFault.noConfusion) (.pure trivial)

theorem gives_findDirentLoop (dir : Nat) (name : List UInt8) (k : Nat) : ∀ lblock,
    Gives K (findDirentLoop dir name k lblock) fun r => ∀ b i, r = .ok (some (b, i)) → K.own b := by
  induction k with
  | zero => exact fun _ => .pure (by simp)
  | succ k ih =>
    refine fun lblock => (has_getBlock_looking _ _).bind fun r => ?_
    cases r with
    | error e => exact .pure (by simp)
    | ok blockno =>
      refine Looks.fix.bind fun r fixed => ?_
      cases r with
      | error e => exact .pure (by simp)
      | ok block =>
        refine (has_dirBlockLastByte _ _).bind fun lastByte => Has.load.bind fun bytes => ?_
        cases findName bytes name (lastByte / 64) 0 with
        | none => exact (Looks.unfix (fixed _ rfl)).bind fun _ => ih (lblock + 1)
        | some k =>
          refine .pure ?_
          rintro b i ⟨⟩
          exact fixed _ rfl

theorem gives_findDirent (dir : Nat) (name : List UInt8) :
    Gives K (findDirent dir name) fun r => ∀ b i, r = .ok (some (b, i)) → K.own b :=
  .ite (.pure (by simp)) (Has.get.bind fun _ => Has.inode.bind fun _ => gives_findDirentLoop _ _ _ _)

theorem has_checkEmptyLoop (dir k : Nat) : ∀ lblock, Has K (checkEmptyLoop dir k lblock) := by
  induction k with
  | zero => exact fun _ => .pure trivial
  | succ k ih =>
    exact fun _ => (has_getBlock_looking _ _).bind fun
      | .error _ => .pure trivial
      | .ok _ => Looks.fix.bind fun
        | .error _, _ => .pure trivial
        | .ok _, fixed => (has_dirBlockLastByte _ _).bind fun _ => Has.load.bind fun _ =>
            Has.inode.bind fun _ => (Looks.unfix (fixed _ rfl)).bind fun _ =>
              .ite (.pure trivial) (ih _)

theorem has_checkDirIsEmpty (dir : Nat) : Has K (checkDirIsEmpty dir) :=
  Has.get.bind fun _ => Has.inode.bind fun _ => has_checkEmptyLoop _ _ _

theorem has_checkReplace (newInode : Nat) (oldIsDir newIsDir : Bool) :
    Has K (checkReplace newInode oldIsDir newIsDir) :=
  .ite (.ite (.pure trivial) (has_checkDirIsEmpty _)) (.ite (.pure trivial) (.pure trivial))

end Looking

end Minix

namespace Filesystem

open Minix

section Looking

variable [Looks K] (endless : K.stops .endless)
include endless

theorem has_readLoop (ptr count : Nat) (pos : Int) (fuel : Nat) :
    ∀ block offset done, Has K (readLoop ptr count pos fuel block offset done) := by
  induction fuel with
  | zero => exact fun _ _ _ => Looks.fault endless
  | succ fuel ih =>
    exact fun _ _ _ => Has.get.bind fun _ => Has.inode.bind fun _ => .ite (.pure trivial)
      ((has_getBlock_looking _ _).bind fun
        | .error _ => .pure trivial
        | .ok _ => Looks.fix.bind fun
          | .error _, _ => .pure trivial
          | .ok _, fixed => Has.load.bind fun _ => (Looks.unfix (fixed _ rfl)).bind fun _ => ih _ _ _)

theorem has_read (ptr count : Nat) (pos : Int) : Has K (read ptr count pos) :=
  Has.get.bind fun _ => has_readLoop endless _ _ _ _ _ _ _

theorem has_getLinkLoop (ptr size fuel : Nat) : ∀ done, Has K (getLinkLoop ptr size fuel done) := by
  induction fuel with
  | zero => exact fun _ => Looks.fault endless
  | succ fuel ih =>
    exact fun _ => (has_read endless _ _ _).bind fun
      | .error _ => .pure trivial
      | .ok _ => .ite (.pure trivial) (ih _)

theorem has_getLink (ptr : Nat) : Has K (getLink ptr) :=
  Has.inode.bind fun _ => .ite (.pure trivial) (.ite (.pure trivial) (has_getLinkLoop endless _ _ _ _))

end Looking

end Filesystem

section Changing

variable [Changes K]

theorem Has.setDirty {ptr : Nat} : Has K (FsM.setInode ptr .setDirty) := Changes.remap fun _ => ⟨_, true, rfl⟩

namespace Minix

theorem has_newBlockFrom (k : Nat) : ∀ i, Has K (newBlockFrom k i) := by
  induction k with
  | zero => exact fun _ => .pure trivial
  | succ k ih =>
    exact fun i => Looks.get.bind fun _ maps => Has.load.bind fun _ => .ite
      ((Changes.store (.inr (maps.2 i))).bind fun _ => (Changes.markDirty (.inr (maps.2 i))).bind fun _ =>
        .ite (.pure trivial) (.pure trivial))
      (ih (i + 1))

theorem has_newBlock : Has K newBlock := Has.get.bind fun _ => has_newBlockFrom _ _

theorem has_freeBlock (block : Nat) : Has K (freeBlock block) :=
  Looks.get.bind fun _ maps => .ite (.pure trivial) (.ite (.pure trivial)
    (Has.load.bind fun _ => (Changes.store (.inr (maps.2 _))).bind fun _ => Changes.markDirty (.inr (maps.2 _))))

theorem has_clearDiskInode (ino : Nat) : Has K (clearDiskInode ino) :=
  (gives_rawInode ino).bind fun
    | .error _, _ => .pure trivial
    | .ok (_, _), isOwn => Has.load.bind fun _ => (Changes.store (.inl (isOwn _ rfl))).bind fun _ =>
        (Changes.markDirty (.inl (isOwn _ rfl))).bind fun _ => Looks.unfix (isOwn _ rfl)

theorem has_freeInode (inode : Nat) : Has K (freeInode inode) :=
  Looks.get.bind fun _ maps => Has.inode.bind fun _ => .ite (.pure trivial) (.ite (.pure trivial)
    ((has_clearDiskInode _).bind fun _ => Has.load.bind fun _ =>
      (Changes.store (.inr (maps.1 _))).bind fun _ => Changes.markDirty (.inr (maps.1 _))))

theorem has_writeEntry (ptr : Nat) {area : Area} (isOwn : area.Own K.own) (offset value : Nat) :
    Has K (writeEntry ptr area offset value) := by
  cases area with
  | inode => exact .ite (Changes.remap fun _ => ⟨_, _, rfl⟩) (Has.fault FsFault.noConfusion)
  | block handle =>
    exact Has.get.bind fun _ => Has.load.bind fun _ => .ite (Changes.store (.inl (isOwn handle rfl)))
      (Has.fault FsFault.noConfusion)

theorem has_forget {p : Indirect} (isOwn : p.area.Own K.own) : Has K p.forget := by
  unfold Indirect.forget
  split
  · exact .pure trivial
  · rename_i handle eq
    exact Changes.forget (isOwn handle eq)

theorem has_markDirty {p : Indirect} (isOwn : p.area.Own K.own) : Has K p.markDirty := by
  unfold Indirect.markDirty
  split
  · exact .pure trivial
  · rename_i handle eq
    exact Changes.markDirty (.inl (isOwn handle eq))

theorem has_forgetAll {chain : List Indirect} (isOwn : OwnChain K.own chain) : Has K (forgetAll chain) := by
  induction chain with
  | nil => exact .pure trivial
  | cons p rest ih => exact (has_forget isOwn.head).bind fun _ => ih isOwn.tail

theorem gives_allocRest (ptr : Nat) (path : List Nat) : ∀ parent,
    Gives K (allocRest ptr parent path) fun r => OwnChain K.own r.1 := by
  induction path with
  | nil => exact fun _ => .pure own_nil
  | cons offset path ih =>
    refine fun parent => has_newBlock.bind fun _ => .ite (.pure own_nil) (Has.get.bind fun _ =>
      Looks.fix.bind fun r fixed => ?_)
    cases r with
    | error e => exact Has.fault FsFault.noConfusion
    | ok handle =>
      have isOwn : Area.Own K.own (.block handle) := Area.own_block (fixed handle rfl)
      exact Has.load.bind fun _ => (Changes.store (.inl (fixed handle rfl))).bind fun _ =>
        (Changes.markDirty (.inl (fixed handle rfl))).bind fun _ => (has_writeEntry _ isOwn _ _).bind fun _ =>
          (ih _).bind fun _ rest => .pure (OwnChain.cons isOwn rest)

theorem has_freeKeys (chain : List Indirect) : Has K (freeKeys chain) := by
  induction chain with
  | nil => exact .pure trivial
  | cons p rest ih => exact (has_freeBlock _).bind fun _ => ih

theorem gives_allocBranch (ptr : Nat) {p : Indirect} (rest : List Nat) (fst : p.area.Own K.own) :
    Gives K (allocBranch ptr p rest) fun r => ∀ chain, r = .ok chain → OwnChain K.own chain := by
  refine has_newBlock.bind fun parent => .ite (.pure (by simp))
    ((gives_allocRest ptr rest parent).bind fun r isOwn => .ite (.pure ?_)
      ((has_forgetAll isOwn).bind fun _ => (has_freeKeys _).bind fun _ => .pure (by simp)))
  rintro chain ⟨⟩
  exact OwnChain.cons fst isOwn

theorem has_spliceBranch (ptr : Nat) (chain : List Indirect) {p : Indirect} {more : List Indirect}
    (fst : p.area.Own K.own) (isOwn : OwnChain K.own more) : Has K (spliceBranch ptr chain p more) :=
  (has_verifyChain _ _).bind fun _ => (has_readEntry _ _ _).bind fun _ => .ite
    ((has_writeEntry _ fst _ _).bind fun _ => (has_markDirty fst).bind fun _ =>
      Has.setDirty.bind fun _ => .pure trivial)
    ((has_forgetAll isOwn).bind fun _ => .pure trivial)

theorem has_allocate (ptr : Nat) {chain : List Indirect} (rest : List Nat) (isOwn : OwnChain K.own chain)
    {again : FsM (Except Errno Nat)} (has : Has K again) : Has K (allocate ptr chain rest again) := by
  cases chain with
  | nil => exact .pure trivial
  | cons p above =>
    refine (gives_allocBranch ptr rest isOwn.head).bind fun r new => ?_
    match r with
    | .error e => exact (has_unfixAll isOwn).bind fun _ => .pure trivial
    | .ok [] => exact Has.fault FsFault.noConfusion
    | .ok (q :: more) =>
      have new := new _ rfl
      refine (has_spliceBranch ptr above new.head new.tail).bind fun _ => .ite (has_finish ?_)
        ((has_unfixAll isOwn).bind fun _ => has)
      intro entry member
      rcases List.mem_append.mp member with isNew | isOld
      · exact new.tail entry (List.mem_reverse.mp isNew)
      · rcases List.mem_cons.mp isOld with rfl | old
        · exact new.head
        · exact isOwn.tail entry old

theorem gives_findShared (ptr : Nat) (path : List Nat) : Gives K (findShared ptr path) fun r => OwnChain K.own r.1 := by
  refine (gives_getBranch ptr _).bind fun branch isOwn => ?_
  generalize branch.chain = chain at isOwn
  cases chain with
  | nil => exact .pure own_nil
  | cons last above =>
    refine (has_readEntry _ _ _).bind fun _ => .ite (.pure isOwn)
      ((gives_rise ptr _ own_nil isOwn).bind fun r parts => ?_)
    obtain ⟨left, shared⟩ := r
    cases shared with
    | nil => exact .pure own_nil
    | cons p shared =>
      exact .ite (.pure (OwnChain.cons parts.2.head parts.2.tail)) ((has_readEntry _ _ _).bind fun _ =>
        (has_writeEntry _ parts.2.head _ _).bind fun _ => (has_unfixAll parts.1).bind fun _ => .pure parts.2)

theorem has_clearEntries (ptr : Nat) {area : Area} (isOwn : area.Own K.own) {action : Nat → FsM Unit}
    (has : ∀ nr, Has K (action nr)) (k : Nat) : ∀ offset, Has K (clearEntries ptr area action k offset) := by
  induction k with
  | zero => exact fun _ => .pure trivial
  | succ k ih =>
    exact fun offset => (has_readEntry _ _ _).bind fun _ => .ite (ih _)
      ((has_writeEntry _ isOwn _ _).bind fun _ => (has _).bind fun _ => ih _)

theorem has_freeBranch (ptr depth : Nat) : ∀ nr, Has K (freeBranch ptr depth nr) := by
  induction depth with
  | zero => exact has_freeBlock
  | succ depth ih =>
    exact fun nr => Has.get.bind fun _ => Looks.fix.bind fun
      | .error _, _ => .pure trivial
      | .ok _, fixed => (has_clearEntries _ (Area.own_block (fixed _ rfl)) ih _ _).bind fun _ =>
          (Changes.forget (fixed _ rfl)).bind fun _ => (has_freeBlock nr).bind fun _ => Has.setDirty

theorem has_freeBranches (ptr : Nat) {area : Area} (isOwn : area.Own K.own) (start stop depth : Nat) :
    Has K (freeBranches ptr area start stop depth) :=
  has_clearEntries ptr isOwn (has_freeBranch ptr depth) _ _

theorem has_clearEnds (ptr k : Nat) {chain : List Indirect} (isOwn : OwnChain K.own chain) :
    Has K (clearEnds ptr k chain) := by
  induction chain with
  | nil => exact .pure trivial
  | cons p chain ih =>
    cases chain with
    | nil => exact .pure trivial
    | cons q chain =>
      simp only [clearEnds]
      exact Has.get.bind fun _ => (has_freeBranches _ isOwn.head _ _ _).bind fun _ =>
        (has_markDirty isOwn.head).bind fun _ => (has_unfix isOwn.head).bind fun _ => ih isOwn.tail

theorem has_clearWhole (ptr k : Nat) : ∀ whole, Has K (clearWhole ptr k whole) := by
  induction k with
  | zero => exact fun _ => .pure trivial
  | succ k ih =>
    exact fun whole => (has_readEntry _ _ _).bind fun _ => .ite
      ((has_writeEntry _ Area.own_inode _ _).bind fun _ => Has.setDirty.bind fun _ =>
        (has_freeBranch _ _ _).bind fun _ => ih _) (ih _)

theorem has_writeInode (inode : Nat) : Has K (writeInode inode) :=
  Has.inode.bind fun _ => (gives_rawInode _).bind fun
    | .error _, _ => .pure trivial
    | .ok (_, _), isOwn => Has.load.bind fun _ => (Changes.store (.inl (isOwn _ rfl))).bind fun _ =>
        (Changes.markDirty (.inl (isOwn _ rfl))).bind fun _ => (Looks.unfix (isOwn _ rfl)).bind fun _ => .pure trivial

theorem has_putLink (dir ino : Nat) (name : List UInt8) {block : Nat} (isOwn : K.own block) (k : Nat) :
    Has K (putLink dir ino name block k) :=
  Has.load.bind fun _ => (Changes.store (.inl isOwn)).bind fun _ => (Changes.markDirty (.inl isOwn)).bind fun _ =>
    (Looks.unfix isOwn).bind fun _ => Has.setDirty.bind fun _ => .pure trivial

theorem has_deleteEntry (dir : Nat) (name : List UInt8) : Has K (deleteEntry dir name) :=
  (gives_findDirent dir name).bind fun
    | .error _, _ => .pure trivial
    | .ok none, _ => .pure trivial
    | .ok (some (_, _)), isOwn => Has.load.bind fun _ => (Changes.store (.inl (isOwn _ _ rfl))).bind fun _ =>
        (Changes.markDirty (.inl (isOwn _ _ rfl))).bind fun _ => (Looks.unfix (isOwn _ _ rfl)).bind fun _ =>
          .pure trivial

end Minix

theorem Inode.has_writeToDisk (inode : Nat) : Has K (writeToDisk inode) :=
  Has.inode.bind fun _ => .ite ((Minix.has_writeInode _).bind fun
    | .error _ => .pure trivial
    | .ok () => (Changes.remap fun _ => ⟨_, false, rfl⟩).bind fun _ => .pure trivial) (.pure trivial)

section Endless

variable (endless : K.stops .endless)
include endless

namespace Minix

theorem has_getBlockLoop (ptr : Nat) (path : List Nat) (create : Bool) (fuel : Nat) :
    Has K (getBlockLoop ptr path create fuel) := by
  induction fuel with
  | zero => exact Looks.fault endless
  | succ fuel ih =>
    refine (gives_getBranch ptr path).bind fun branch isOwn => ?_
    cases branch with
    | found chain => exact has_finish isOwn
    | missing chain rest =>
      exact .ite (has_allocate _ _ isOwn ih) ((has_unfixAll isOwn).bind fun _ => .pure trivial)
    | failed chain rest e =>
      exact .ite ((has_unfixAll isOwn).bind fun _ => .pure trivial)
        (.ite ((has_unfixAll isOwn).bind fun _ => ih) (has_allocate _ _ isOwn ih))

theorem has_getBlock (ptr block : Nat) (create : Bool) : Has K (getBlock ptr block create) :=
  Has.get.bind fun _ => has_getBlockLoop endless _ _ _ _

end Minix

namespace Filesystem

open Minix

theorem has_writeLoop (ptr : Nat) (buf : List UInt8) (fuel : Nat) :
    ∀ block offset written, Has K (writeLoop ptr buf fuel block offset written) := by
  induction fuel with
  | zero => exact fun _ _ _ => Looks.fault endless
  | succ fuel ih =>
    exact fun _ _ _ => Has.get.bind fun _ => .ite (.pure trivial) ((has_getBlock endless _ _ _).bind fun
      | .error _ => .pure trivial
      | .ok _ => Looks.fix.bind fun
        | .error _, _ => .pure trivial
        | .ok _, fixed => Has.load.bind fun _ => (Changes.store (.inl (fixed _ rfl))).bind fun _ =>
            (Changes.markDirty (.inl (fixed _ rfl))).bind fun _ => (Looks.unfix (fixed _ rfl)).bind fun _ => ih _ _ _)

theorem has_write (ptr : Nat) (buf : List UInt8) (pos : Int) : Has K (write ptr buf pos) :=
  Has.get.bind fun _ => has_writeLoop endless _ _ _ _ _ _

theorem has_punchLoop (ptr : Nat) (stop : Int) (fuel : Nat) :
    ∀ block offset start, Has K (punchLoop ptr stop fuel block offset start) := by
  induction fuel with
  | zero => exact fun _ _ _ => Looks.fault endless
  | succ fuel ih =>
    exact fun _ _ _ => Has.get.bind fun _ => .ite (.pure trivial) ((has_getBlock endless _ _ _).bind fun
      | .error _ => .pure trivial
      | .ok _ => Looks.fix.bind fun
        | .error _, _ => .pure trivial
        | .ok _, fixed => Has.load.bind fun _ => (Changes.store (.inl (fixed _ rfl))).bind fun _ =>
            (Changes.markDirty (.inl (fixed _ rfl))).bind fun _ => (Looks.unfix (fixed _ rfl)).bind fun _ => ih _ _ _)

theorem has_punchHole (ptr : Nat) (start stop : Int) : Has K (punchHole ptr start stop) :=
  Has.get.bind fun _ => has_punchLoop endless _ _ _ _ _ _

end Filesystem

theorem Minix.has_writeAll (inode : Nat) (buf : List UInt8) (fuel : Nat) :
    ∀ written, Has K (writeAll inode buf fuel written) := by
  induction fuel with
  | zero => exact fun _ => Looks.fault endless
  | succ fuel ih =>
    exact fun _ => (Filesystem.has_write endless _ _ _).bind fun
      | .error _ => .pure trivial
      | .ok _ => .ite (ih _) (.pure trivial)

end Endless

end Changing

section Filling

variable [Fills K]

namespace Has

variable {ptr : Nat}

theorem incNlinks : Has K (FsM.setInode ptr .incNlinks) := Fills.fill fun _ => ⟨rfl, rfl, rfl, rfl, rfl⟩

theorem decNlinks : Has K (FsM.setInode ptr .decNlinks) := by
  refine Fills.fill fun i => ?_
  unfold Inode.decNlinks
  exact ⟨rfl, rfl, rfl, rfl, rfl⟩

theorem setSize {size : Inode → Int} : Has K (FsM.setInode ptr fun i => { i with size := size i }) :=
  Fills.fill fun _ => ⟨rfl, rfl, rfl, rfl, rfl⟩

theorem setNlinks {n : Nat} : Has K (FsM.setInode ptr fun i => { i with nlinks := n }) :=
  Fills.fill fun _ => ⟨rfl, rfl, rfl, rfl, rfl⟩

end Has

namespace Minix

theorem has_truncate (ptr : Nat) (length : Int) : Has K (truncate ptr length) := by
  refine Has.setSize.bind fun _ => Has.setDirty.bind fun _ => Has.get.bind fun _ => ?_
  dsimp only
  split
  · exact .pure trivial
  · exact (has_freeBranches _ Area.own_inode _ _ _).bind fun _ => (has_clearWhole _ _ _).bind fun _ =>
      Has.setDirty
  · refine (gives_findShared _ _).bind fun r isOwn => ?_
    obtain ⟨shared, nr⟩ := r
    dsimp only at isOwn ⊢
    have rest : ∀ k j whole, Has K (do
        clearEnds ptr k shared
        clearWhole ptr j whole
        setInode ptr .setDirty) := fun _ _ _ =>
      (has_clearEnds _ _ isOwn).bind fun _ => (has_clearWhole _ _ _).bind fun _ => Has.setDirty
    split
    · split
      · exact (has_markDirty isOwn.head).bind fun _ => (has_freeBranch _ _ _).bind fun _ => rest _ _ _
      · exact Has.setDirty.bind fun _ => (has_freeBranch _ _ _).bind fun _ => rest _ _ _
    · exact rest _ _ _

theorem has_rmdir (parentDir : Nat) (name : List UInt8) (dir : Nat) : Has K (rmdir parentDir name dir) :=
  (has_checkDirIsEmpty _).bind fun
    | .error _ => .pure trivial
    | .ok () => (has_deleteEntry _ _).bind fun
      | .error _ => .pure trivial
      | .ok () => Has.decNlinks.bind fun _ => Has.setDirty.bind fun _ =>
          Has.setNlinks.bind fun _ => Has.setDirty.bind fun _ => .pure trivial

theorem has_unlink (dir : Nat) (name : List UInt8) (inode : Nat) : Has K (unlink dir name inode) :=
  (has_deleteEntry _ _).bind fun
    | .error _ => .pure trivial
    | .ok () => Has.decNlinks.bind fun _ => Has.setDirty.bind fun _ => .pure trivial

section Endless

variable (endless : K.stops .endless)
include endless

theorem has_addLinkLoop (dir ino : Nat) (name : List UInt8) (fuel : Nat) :
    ∀ lblock, Has K (addLinkLoop dir ino name fuel lblock) := by
  induction fuel with
  | zero => exact fun _ => Looks.fault endless
  | succ fuel ih =>
    refine fun lblock => Has.get.bind fun s => (has_getBlock endless _ _ _).bind fun r => ?_
    cases r with
    | error e => exact .pure trivial
    | ok blockno =>
      refine Looks.fix.bind fun r fixed => ?_
      cases r with
      | error e => exact .pure trivial
      | ok block =>
        have isOwn := fixed block rfl
        refine (has_dirBlockLastByte _ _).bind fun lastByte => Has.load.bind fun bytes => ?_
        cases findSlot bytes name (lastByte / 64) (s.blocksize / 64) 0 with
        | append k =>
          exact (Changes.store (.inl isOwn)).bind fun _ => Has.setSize.bind fun _ => has_putLink _ _ _ isOwn _
        | free k => exact has_putLink _ _ _ isOwn _
        | taken => exact (Looks.unfix isOwn).bind fun _ => .pure trivial
        | full => exact (Looks.unfix isOwn).bind fun _ => ih (lblock + 1)

theorem has_addLink (dir inode : Nat) (name : List UInt8) : Has K (addLink dir inode name) :=
  .ite (.pure trivial) (Has.get.bind fun _ => Has.inode.bind fun _ => Has.inode.bind fun _ =>
    has_addLinkLoop endless _ _ _ _ _)

theorem has_makeEmptyDir (inode parentDir : Nat) : Has K (makeEmptyDir inode parentDir) :=
  (has_getBlock endless _ _ _).bind fun
    | .error _ => .pure trivial
    | .ok _ => Looks.fix.bind fun
      | .error _, _ => .pure trivial
      | .ok _, fixed => Has.inode.bind fun _ => Has.inode.bind fun _ => Has.load.bind fun _ =>
          (Changes.store (.inl (fixed _ rfl))).bind fun _ => Has.incNlinks.bind fun _ => Has.setSize.bind fun _ =>
            Has.setDirty.bind fun _ => Has.incNlinks.bind fun _ => Has.setDirty.bind fun _ =>
              (Changes.markDirty (.inl (fixed _ rfl))).bind fun _ => (Looks.unfix (fixed _ rfl)).bind fun _ =>
                .pure trivial

theorem has_link (dir : Nat) (name : List UInt8) (inode : Nat) : Has K (link dir name inode) :=
  .ite (.pure trivial) ((has_addLink endless _ _ _).bind fun
    | .error _ => .pure trivial
    | .ok () => Has.incNlinks.bind fun _ => Has.setDirty.bind fun _ => .pure trivial)

end Endless

end Minix

end Filling

end MPStuBS
