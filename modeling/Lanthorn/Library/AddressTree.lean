import Mathlib.Data.List.Induction
import Mathlib.Data.List.Nodup
import Mathlib.Logic.Function.Basic

/-!
# Binary trees of addresses and their representation in memory

A binary tree whose nodes sit at addresses of a memory: every address stores a color, the address of its parent and
the addresses of its two children, with zero for an absent one. `Tree` is the shape that such a memory holds,
`Tree.inorder` the addresses from left to right, and `Represents` says that the memory holds a given tree below a
given parent.

A position inside a tree is a list of frames, innermost first: each frame is a node on the way to the root, the
side on which the position hangs, and the subtree on the other side. `plug` puts a tree into a position.
`inorder_plug` splits the addresses around a position, and `represents_plug` splits the memory: the tree at the
position and the surroundings, which meet in one address. The rules on `RepresentsContext` then change one of the
two and keep the other.

`Tree.join` builds a node from a side and the two subtrees, so that an argument about one side is one about both.
-/

namespace Lanthorn.Library

open List Function

/-- The two sides of a node. -/
inductive Side
  | left
  | right
  deriving DecidableEq, Repr

def Side.flip : Side → Side
  | .left => .right
  | .right => .left

@[simp] theorem Side.flip_flip (d : Side) : d.flip.flip = d := by cases d <;> rfl

@[simp] theorem Side.flip_ne (d : Side) : d.flip ≠ d := by cases d <;> simp [Side.flip]

@[simp] theorem Side.ne_flip (d : Side) : d ≠ d.flip := (Side.flip_ne d).symm

/-- The color of a node. -/
inductive Color
  | red
  | black
  deriving DecidableEq, Repr

/-- A binary tree of colored nodes at addresses. -/
inductive Tree
  | nil
  | node (l : Tree) (addr : ℕ) (color : Color) (r : Tree)
  deriving DecidableEq, Repr

namespace Tree

/-- The address of the root, zero for the empty tree. -/
def root : Tree → ℕ
  | nil => 0
  | node _ a _ _ => a

/-- The color of the root, black for the empty tree. -/
def color : Tree → Color
  | nil => .black
  | node _ _ c _ => c

/-- The addresses of a tree from left to right. -/
def inorder : Tree → List ℕ
  | nil => []
  | node l a _ r => l.inorder ++ a :: r.inorder

def size : Tree → ℕ
  | nil => 0
  | node l _ _ r => l.size + r.size + 1

/-- The tree with its root in another color. -/
def paint (c : Color) : Tree → Tree
  | nil => nil
  | node l a _ r => node l a c r

/-- A node from the subtree on a side and the subtree on the other side. -/
def join (d : Side) (a : ℕ) (c : Color) (near far : Tree) : Tree :=
  match d with
  | .left => node near a c far
  | .right => node far a c near

@[simp] theorem root_nil : nil.root = 0 := rfl
@[simp] theorem root_node (l : Tree) (a : ℕ) (c : Color) (r : Tree) : (node l a c r).root = a := rfl
@[simp] theorem color_nil : nil.color = .black := rfl
@[simp] theorem color_node (l : Tree) (a : ℕ) (c : Color) (r : Tree) :
    (node l a c r).color = c := rfl
@[simp] theorem inorder_nil : nil.inorder = [] := rfl
@[simp] theorem inorder_node (l : Tree) (a : ℕ) (c : Color) (r : Tree) :
    (node l a c r).inorder = l.inorder ++ a :: r.inorder := rfl
@[simp] theorem size_nil : nil.size = 0 := rfl
@[simp] theorem size_node (l : Tree) (a : ℕ) (c : Color) (r : Tree) :
    (node l a c r).size = l.size + r.size + 1 := rfl

theorem length_inorder (t : Tree) : t.inorder.length = t.size := by
  induction t with
  | nil => rfl
  | node l a c r ihl ihr => simp [ihl, ihr]; omega

@[simp] theorem root_join (d : Side) (a : ℕ) (c : Color) (near far : Tree) :
    (join d a c near far).root = a := by cases d <;> rfl

@[simp] theorem color_join (d : Side) (a : ℕ) (c : Color) (near far : Tree) :
    (join d a c near far).color = c := by cases d <;> rfl

@[simp] theorem paint_join (d : Side) (a : ℕ) (c c' : Color) (near far : Tree) :
    paint c' (join d a c near far) = join d a c' near far := by cases d <;> rfl

@[simp] theorem root_paint (c : Color) (t : Tree) : (paint c t).root = t.root := by cases t <;> rfl

@[simp] theorem inorder_paint (c : Color) (t : Tree) : (paint c t).inorder = t.inorder := by cases t <;> rfl

@[simp] theorem size_paint (c : Color) (t : Tree) : (paint c t).size = t.size := by cases t <;> rfl

theorem paint_color (t : Tree) : paint t.color t = t := by cases t <;> rfl

@[simp] theorem size_join (d : Side) (a : ℕ) (c : Color) (near far : Tree) :
    (join d a c near far).size = near.size + far.size + 1 := by
  cases d with
  | left => rfl
  | right => simp [join, Nat.add_comm]

theorem join_flip (d : Side) (a : ℕ) (c : Color) (near far : Tree) :
    join d.flip a c near far = join d a c far near := by cases d <;> rfl

theorem mem_inorder_join {d : Side} {a x : ℕ} {c : Color} {near far : Tree} :
    x ∈ (join d a c near far).inorder ↔ x = a ∨ x ∈ near.inorder ∨ x ∈ far.inorder := by
  cases d <;> simp [join] <;> tauto

theorem inorder_join_perm (d : Side) (a : ℕ) (c : Color) (near far : Tree) :
    (join d a c near far).inorder.Perm (a :: (near.inorder ++ far.inorder)) := by
  cases d with
  | left => exact perm_middle
  | right => exact List.perm_middle.trans (List.perm_append_comm.cons a)

theorem exists_join {t : Tree} (d : Side) (ht : t ≠ nil) : ∃ near far, t = join d t.root t.color near far := by
  cases t with
  | nil => exact absurd rfl ht
  | node l a c r => cases d with
    | left => exact ⟨l, r, rfl⟩
    | right => exact ⟨r, l, rfl⟩

theorem ne_nil_of_red {t : Tree} (ht : t.color = .red) : t ≠ nil := by
  rintro rfl
  cases ht

theorem join_ne_nil {d : Side} {a : ℕ} {c : Color} {near far : Tree} :
    join d a c near far ≠ nil := by cases d <;> simp [join]

theorem inorder_rotate (d : Side) (x y : ℕ) (cx cy cx' cy' : Color) (a b c : Tree) :
    (join d y cy' (join d x cx' a b) c).inorder = (join d x cx a (join d y cy b c)).inorder := by
  cases d <;> simp [join]

theorem ne_root_of_not_mem {t : Tree} {x : ℕ} (hx : x ≠ 0) (hmem : x ∉ t.inorder) : x ≠ t.root := by
  cases t with
  | nil => exact hx
  | node l a c r => exact fun h ↦ hmem (by simp [h])

theorem mem_root {t : Tree} (ht : t ≠ nil) : t.root ∈ t.inorder := by
  cases t with
  | nil => exact absurd rfl ht
  | node l a c r => simp

end Tree

/-! ### Positions -/

/-- A node on the way from a position to the root: the side on which the position hangs and the
subtree on the other side. -/
structure Frame where
  side : Side
  addr : ℕ
  color : Color
  sibling : Tree
  deriving DecidableEq, Repr

/-- The node of a frame with a tree in the position. -/
def Frame.fill (F : Frame) (t : Tree) : Tree := .join F.side F.addr F.color t F.sibling

/-- Put a tree into a position, given by its frames from the innermost outwards. -/
def plug : List Frame → Tree → Tree
  | [], t => t
  | F :: fs, t => plug fs (F.fill t)

/-- The address of the innermost frame, zero at the root. -/
def hook : List Frame → ℕ
  | [] => 0
  | F :: _ => F.addr

/-- The side on which a position hangs below its innermost frame, left at the root. -/
def innerSide : List Frame → Side
  | [] => .left
  | F :: _ => F.side

def before : List Frame → List ℕ
  | [] => []
  | ⟨.left, _, _, _⟩ :: fs => before fs
  | ⟨.right, a, _, s⟩ :: fs => before fs ++ s.inorder ++ [a]

def after : List Frame → List ℕ
  | [] => []
  | ⟨.left, a, _, s⟩ :: fs => a :: s.inorder ++ after fs
  | ⟨.right, _, _, _⟩ :: fs => after fs

variable {fs : List Frame} {x : ℕ} {t : Tree}

theorem before_eq_nil (hfs : ∀ F ∈ fs, F.side = .left) : before fs = [] := by
  induction fs with
  | nil => rfl
  | cons F fs ih =>
    obtain ⟨side, a, c, s⟩ := F
    obtain rfl : side = .left := hfs _ mem_cons_self
    exact ih fun F hF ↦ hfs F (mem_cons_of_mem _ hF)

/-- The addresses of the surroundings of a position, in no particular order. -/
def around : List Frame → List ℕ
  | [] => []
  | F :: fs => F.addr :: F.sibling.inorder ++ around fs

@[simp] theorem around_nil : around [] = [] := rfl
@[simp] theorem around_cons (F : Frame) (fs : List Frame) :
    around (F :: fs) = F.addr :: F.sibling.inorder ++ around fs := rfl
@[simp] theorem plug_nil (t : Tree) : plug [] t = t := rfl
@[simp] theorem plug_cons (F : Frame) (fs : List Frame) (t : Tree) :
    plug (F :: fs) t = plug fs (F.fill t) := rfl
@[simp] theorem hook_nil : hook [] = 0 := rfl
@[simp] theorem hook_cons (F : Frame) (fs : List Frame) : hook (F :: fs) = F.addr := rfl

theorem hook_eq_zero_or_mem (fs : List Frame) : hook fs = 0 ∨ hook fs ∈ around fs := by
  cases fs with
  | nil => exact Or.inl rfl
  | cons F fs => exact Or.inr (by simp)

theorem mem_around_of_sibling {F : Frame} (hF : F ∈ fs) (hx : x ∈ F.sibling.inorder) : x ∈ around fs := by
  induction fs with
  | nil => simp at hF
  | cons G fs ih =>
    rw [around_cons, mem_append]
    rcases List.mem_cons.mp hF with rfl | hF
    · exact Or.inl (mem_cons_of_mem _ hx)
    · exact Or.inr (ih hF)

theorem around_append (fs gs : List Frame) : around (fs ++ gs) = around fs ++ around gs := by
  induction fs with
  | nil => rfl
  | cons F fs ih => simp [ih]

theorem plug_append (fs gs : List Frame) (t : Tree) : plug (fs ++ gs) t = plug gs (plug fs t) := by
  induction fs generalizing t with
  | nil => rfl
  | cons F fs ih => exact ih _

theorem inorder_plug (fs : List Frame) (t : Tree) : (plug fs t).inorder = before fs ++ t.inorder ++ after fs := by
  induction fs generalizing t with
  | nil => simp [before, after]
  | cons F fs ih =>
    obtain ⟨side, a, c, s⟩ := F
    cases side <;> simp [ih, Frame.fill, Tree.join, before, after]

theorem inorder_plug_perm (fs : List Frame) (t : Tree) : (plug fs t).inorder.Perm (t.inorder ++ around fs) := by
  induction fs generalizing t with
  | nil => simp
  | cons F fs ih =>
    refine (ih (F.fill t)).trans ?_
    obtain ⟨side, a, c, s⟩ := F
    cases side
    · simp [Frame.fill, Tree.join]
    · have hswap : (s.inorder ++ a :: t.inorder).Perm (t.inorder ++ a :: s.inorder) :=
        (perm_append_comm).trans (by simp [List.perm_middle.symm])
      simpa [Frame.fill, Tree.join] using hswap.append_right (around fs)

theorem mem_plug : x ∈ (plug fs t).inorder ↔ x ∈ t.inorder ∨ x ∈ around fs := by
  rw [(inorder_plug_perm fs t).mem_iff, mem_append]

theorem nodup_plug : (plug fs t).inorder.Nodup ↔ (t.inorder ++ around fs).Nodup :=
  (inorder_plug_perm fs t).nodup_iff

theorem inorder_plug_congr (fs : List Frame) {u : Tree} (htu : t.inorder = u.inorder) :
    (plug fs t).inorder = (plug fs u).inorder := by rw [inorder_plug, inorder_plug, htu]

theorem exists_plug_of_mem (hx : x ∈ t.inorder) : ∃ fs l c r, t = plug fs (.node l x c r) := by
  induction t with
  | nil => simp at hx
  | node l a c r ihl ihr =>
    simp only [Tree.inorder_node, mem_append, mem_cons] at hx
    rcases hx with hx | rfl | hx
    · obtain ⟨fs, l', c', r', rfl⟩ := ihl hx
      exact ⟨fs ++ [⟨.left, a, c, r⟩], l', c', r', by simp [plug_append, Frame.fill, Tree.join]⟩
    · exact ⟨[], l, c, r, rfl⟩
    · obtain ⟨fs, l', c', r', rfl⟩ := ihr hx
      exact ⟨fs ++ [⟨.right, a, c, l⟩], l', c', r', by simp [plug_append, Frame.fill, Tree.join]⟩

theorem root_plug_cons (F : Frame) (fs : List Frame) (t u : Tree) :
    (plug (F :: fs) t).root = (plug (F :: fs) u).root := by
  induction fs generalizing F t u with
  | nil => simp [Frame.fill]
  | cons G fs ih =>
    rw [plug_cons, plug_cons F]
    exact ih G _ _

theorem root_plug_mem (F : Frame) (fs : List Frame) (t : Tree) : (plug (F :: fs) t).root ∈ around (F :: fs) := by
  induction fs generalizing F t with
  | nil => simp [Frame.fill]
  | cons G fs ih =>
    rw [around_cons]
    exact mem_append_right _ (ih G (F.fill t))

theorem length_le_size_plug (fs : List Frame) (t : Tree) : fs.length + t.size ≤ (plug fs t).size := by
  induction fs generalizing t with
  | nil => simp
  | cons F fs ih =>
    have h := ih (F.fill t)
    obtain ⟨side, a, c, s⟩ := F
    cases side <;> simp [Frame.fill, Tree.join] at h ⊢ <;> omega

/-! ### Memory -/

/-- What a memory stores at the addresses of nodes. -/
@[ext] structure TreeMem where
  color : ℕ → Color
  parent : ℕ → ℕ
  child : Side → ℕ → ℕ

namespace TreeMem

def setColor (m : TreeMem) (a : ℕ) (c : Color) : TreeMem :=
  { m with color := update m.color a c }

def setParent (m : TreeMem) (a b : ℕ) : TreeMem :=
  { m with parent := update m.parent a b }

def setChild (m : TreeMem) (d : Side) (a b : ℕ) : TreeMem :=
  { m with child := update m.child d (update (m.child d) a b) }

@[simp] theorem setColor_color (m : TreeMem) (a : ℕ) (c : Color) (x : ℕ) :
    (m.setColor a c).color x = if x = a then c else m.color x :=
  update_apply _ _ _ _
@[simp] theorem setColor_parent (m : TreeMem) (a : ℕ) (c : Color) :
    (m.setColor a c).parent = m.parent := rfl
@[simp] theorem setColor_child (m : TreeMem) (a : ℕ) (c : Color) :
    (m.setColor a c).child = m.child := rfl
@[simp] theorem setParent_parent (m : TreeMem) (a b x : ℕ) :
    (m.setParent a b).parent x = if x = a then b else m.parent x :=
  update_apply _ _ _ _
@[simp] theorem setParent_color (m : TreeMem) (a b : ℕ) :
    (m.setParent a b).color = m.color := rfl
@[simp] theorem setParent_child (m : TreeMem) (a b : ℕ) :
    (m.setParent a b).child = m.child := rfl
@[simp] theorem setChild_color (m : TreeMem) (d : Side) (a b : ℕ) :
    (m.setChild d a b).color = m.color := rfl
@[simp] theorem setChild_parent (m : TreeMem) (d : Side) (a b : ℕ) :
    (m.setChild d a b).parent = m.parent := rfl
@[simp] theorem setChild_child (m : TreeMem) (d : Side) (a b : ℕ) (e : Side) (x : ℕ) :
    (m.setChild d a b).child e x = if e = d ∧ x = a then b else m.child e x := by
  unfold setChild
  by_cases he : e = d
  · subst he
    by_cases hx : x = a <;> simp [hx]
  · simp [update_of_ne, he]

theorem setChild_comm (m : TreeMem) {d e : Side} {a b v w : ℕ} (hab : a ≠ b) :
    (m.setChild d a v).setChild e b w = (m.setChild e b w).setChild d a v := by
  ext z
  · rfl
  · rfl
  · simp only [setChild_child]
    grind

/-- Two memories store the same at an address. -/
def AgreeAt (m m' : TreeMem) (x : ℕ) : Prop :=
  m'.color x = m.color x ∧ m'.parent x = m.parent x ∧ ∀ d, m'.child d x = m.child d x

theorem AgreeAt.refl (m : TreeMem) (x : ℕ) : AgreeAt m m x := ⟨rfl, rfl, fun _ ↦ rfl⟩

theorem AgreeAt.trans {m m' m'' : TreeMem} {x : ℕ} (h : AgreeAt m m' x) (h' : AgreeAt m' m'' x) : AgreeAt m m'' x :=
  ⟨h'.1.trans h.1, h'.2.1.trans h.2.1, fun d ↦ (h'.2.2 d).trans (h.2.2 d)⟩

end TreeMem

/-- The memory holds a tree whose root has the given parent. -/
def Represents (m : TreeMem) (up : ℕ) : Tree → Prop
  | .nil => True
  | .node l a c r => a ≠ 0 ∧ m.color a = c ∧ m.parent a = up ∧
      m.child .left a = l.root ∧ m.child .right a = r.root ∧ Represents m a l ∧ Represents m a r

/-- The memory holds the surroundings of a position at which the tree with the given root
hangs. -/
def RepresentsContext (m : TreeMem) : List Frame → ℕ → Prop
  | [], _ => True
  | F :: fs, x => F.addr ≠ 0 ∧ m.color F.addr = F.color ∧ m.parent F.addr = hook fs ∧
      m.child F.side F.addr = x ∧ m.child F.side.flip F.addr = F.sibling.root ∧
      Represents m F.addr F.sibling ∧ RepresentsContext m fs F.addr

@[simp] theorem represents_nil (m : TreeMem) (up : ℕ) : Represents m up .nil := trivial

theorem represents_join (m : TreeMem) (up : ℕ) (d : Side) (a : ℕ) (c : Color) (near far : Tree) :
    Represents m up (.join d a c near far) ↔ a ≠ 0 ∧ m.color a = c ∧ m.parent a = up ∧
      m.child d a = near.root ∧ m.child d.flip a = far.root ∧ Represents m a near ∧ Represents m a far := by
  cases d
  · exact Iff.rfl
  · simp only [Tree.join, Represents, Side.flip]
    tauto

variable {m m' : TreeMem} {up x : ℕ} {t : Tree} {fs : List Frame}

section

variable (ht : Represents m up t)
include ht

theorem Represents.ne_zero (hx : x ∈ t.inorder) : x ≠ 0 := by
  induction t generalizing up with
  | nil => simp at hx
  | node l a c r ihl ihr =>
    obtain ⟨ha, -, -, -, -, hl, hr⟩ := ht
    simp only [Tree.inorder_node, mem_append, mem_cons] at hx
    rcases hx with hx | rfl | hx
    · exact ihl hl hx
    · exact ha
    · exact ihr hr hx

theorem Represents.root_eq_zero_iff : t.root = 0 ↔ t = .nil := by
  cases t with
  | nil => simp
  | node l a c r => simpa using ht.1

theorem Represents.color_root (hne : t ≠ .nil) : m.color t.root = t.color := by
  cases t with
  | nil => exact absurd rfl hne
  | node l a c r => exact ht.2.1

theorem Represents.parent_root (hne : t ≠ .nil) : m.parent t.root = up := by
  cases t with
  | nil => exact absurd rfl hne
  | node l a c r => exact ht.2.2.1

theorem Represents.congr (hagree : ∀ x ∈ t.inorder, m.AgreeAt m' x) : Represents m' up t := by
  induction t generalizing up with
  | nil => trivial
  | node l a c r ihl ihr =>
    obtain ⟨ha, hc, hp, hleft, hright, hl, hr⟩ := ht
    obtain ⟨hcolor, hparent, hchild⟩ := hagree a (by simp)
    exact ⟨ha, hcolor.trans hc, hparent.trans hp, (hchild _).trans hleft, (hchild _).trans hright,
      ihl hl fun x hx ↦ hagree x (by simp [hx]), ihr hr fun x hx ↦ hagree x (by simp [hx])⟩

end

theorem Represents.rehang {up' : ℕ} (ht : Represents m up t) (hnodup : t.inorder.Nodup)
    (hagree : ∀ x ∈ t.inorder, x ≠ t.root → m.AgreeAt m' x)
    (hcolor : m'.color t.root = m.color t.root) (hchild : ∀ d, m'.child d t.root = m.child d t.root)
    (hparent : t ≠ .nil → m'.parent t.root = up') : Represents m' up' t := by
  cases t with
  | nil => trivial
  | node l a c r =>
    obtain ⟨ha, hc, -, hleft, hright, hl, hr⟩ := ht
    simp only [Tree.inorder_node, List.nodup_append, nodup_cons] at hnodup
    refine ⟨ha, hcolor.trans hc, hparent (by simp), (hchild _).trans hleft,
      (hchild _).trans hright, hl.congr fun x hx ↦ ?_, hr.congr fun x hx ↦ ?_⟩
    · exact hagree x (by simp [hx]) fun h ↦ hnodup.2.2 x hx a (by simp) h
    · exact hagree x (by simp [hx]) fun h ↦ hnodup.2.1.1 (by simpa [h] using hx)

theorem represents_plug (m : TreeMem) (fs : List Frame) (t : Tree) :
    Represents m 0 (plug fs t) ↔ RepresentsContext m fs t.root ∧ Represents m (hook fs) t := by
  induction fs generalizing t with
  | nil => simp [RepresentsContext]
  | cons F fs ih =>
    rw [plug_cons, ih, Frame.fill, represents_join]
    simp only [RepresentsContext, Tree.root_join, hook_cons]
    tauto

theorem RepresentsContext.congr (hcontext : RepresentsContext m fs x) (hagree : ∀ y ∈ around fs, m.AgreeAt m' y) :
    RepresentsContext m' fs x := by
  induction fs generalizing x with
  | nil => trivial
  | cons F fs ih =>
    obtain ⟨ha, hc, hp, hnear, hfar, hs, hrest⟩ := hcontext
    obtain ⟨hcolor, hparent, hchild⟩ := hagree F.addr (by simp)
    exact ⟨ha, hcolor.trans hc, hparent.trans hp, (hchild _).trans hnear, (hchild _).trans hfar,
      hs.congr fun y hy ↦ hagree y (by simp [hy]), ih hrest fun y hy ↦ hagree y (by simp [hy])⟩

theorem RepresentsContext.reattach {F : Frame} {y : ℕ} (hcontext : RepresentsContext m (F :: fs) x)
    (hnodup : (around (F :: fs)).Nodup) (hagree : ∀ z ∈ around (F :: fs), z ≠ F.addr → m.AgreeAt m' z)
    (hcolor : m'.color F.addr = m.color F.addr) (hparent : m'.parent F.addr = m.parent F.addr)
    (hnear : m'.child F.side F.addr = y) (hfar : m'.child F.side.flip F.addr = m.child F.side.flip F.addr) :
    RepresentsContext m' (F :: fs) y := by
  obtain ⟨ha, hc, hp, -, hf, hs, hrest⟩ := hcontext
  simp only [around_cons, cons_append, nodup_cons, mem_append, not_or] at hnodup
  refine ⟨ha, hcolor.trans hc, hparent.trans hp, hnear, hfar.trans hf, hs.congr fun z hz ↦ ?_,
    hrest.congr fun z hz ↦ ?_⟩
  · exact hagree z (by simp [hz]) fun h ↦ hnodup.1.1 (h ▸ hz)
  · exact hagree z (by simp [hz]) fun h ↦ hnodup.1.2 (h ▸ hz)

theorem Represents.replug {F : Frame} {u : Tree} (h : Represents m up (plug (F :: fs) t))
    (hnodup : (around (F :: fs)).Nodup) (hagree : ∀ z ∈ around (F :: fs), z ≠ F.addr → m.AgreeAt m' z)
    (hcolor : m'.color F.addr = m.color F.addr) (hparent : m'.parent F.addr = m.parent F.addr)
    (hnear : m'.child F.side F.addr = u.root)
    (hfar : m'.child F.side.flip F.addr = m.child F.side.flip F.addr) (hu : Represents m' F.addr u) :
    Represents m' up (plug (F :: fs) u) := by
  -- induction from the outermost frame inwards
  induction fs using List.reverseRecOn generalizing up with
  | nil =>
    simp only [plug_cons, plug_nil, Frame.fill, represents_join] at h ⊢
    obtain ⟨ha, hc, hp, -, hf, -, hs⟩ := h
    refine ⟨ha, hcolor.trans hc, hparent.trans hp, hnear, hfar.trans hf, hu,
      hs.congr fun z hz ↦ hagree z (by simp [hz]) ?_⟩
    rintro rfl
    simp [hz] at hnodup
  | append_singleton fs G ih =>
    have hplug : ∀ v, plug (F :: (fs ++ [G])) v = G.fill (plug (F :: fs) v) := fun v ↦ by
      rw [← cons_append, plug_append, plug_cons, plug_nil]
    have haround : around (F :: (fs ++ [G])) = around (F :: fs) ++ G.addr :: G.sibling.inorder := by
      rw [← cons_append, around_append, around_cons G, around_nil, append_nil]
    rw [hplug, Frame.fill, represents_join] at h ⊢
    rw [haround] at hnodup hagree
    obtain ⟨ha, hc, hp, hn, hf, ht, hs⟩ := h
    have hne : ∀ z ∈ G.addr :: G.sibling.inorder, z ≠ F.addr := fun z hz heq ↦
      (List.nodup_append.mp hnodup).2.2 F.addr (by simp) z hz heq.symm
    obtain ⟨hGc, hGp, hGch⟩ := hagree G.addr (by simp) (hne _ (by simp))
    refine ⟨ha, hGc.trans hc, hGp.trans hp, ?_, (hGch _).trans hf, ?_, hs.congr fun z hz ↦ ?_⟩
    · rw [hGch, hn]
      exact root_plug_cons F fs t u
    · exact ih ht (List.nodup_append.mp hnodup).1 fun z hz ↦ hagree z (mem_append_left _ hz)
    · exact hagree z (by simp [hz]) (hne z (by simp [hz]))

/-- The address of the innermost frame, or a given one at the top. -/
def hookBelow (up : ℕ) : List Frame → ℕ
  | [] => up
  | F :: _ => F.addr

theorem Represents.of_plug (h : Represents m up (plug fs t)) : Represents m (hookBelow up fs) t := by
  induction fs generalizing t with
  | nil => exact h
  | cons F fs ih => exact ((represents_join ..).mp (ih h)).2.2.2.2.2.1

theorem RepresentsContext.ne_zero {z : ℕ} (h : RepresentsContext m fs x) (hz : z ∈ around fs) : z ≠ 0 := by
  induction fs generalizing x with
  | nil => simp at hz
  | cons F fs ih =>
    obtain ⟨ha, -, -, -, -, hs, hrest⟩ := h
    simp only [around_cons, cons_append, mem_cons, mem_append] at hz
    rcases hz with rfl | hz | hz
    · exact ha
    · exact hs.ne_zero hz
    · exact ih hrest hz

end Lanthorn.Library
