import DualSyntax.Proofs.Forest.Edits
import DualSyntax.Proofs.Semantics.ViewedMeanings

/-!
# Later statements

A new statement that is inserted behind a statement changes nothing about that one: its scopes show the
statements in front of it only, and whatever a question jumps to stands elsewhere.  The exception are
namespaces, which are collected from the whole tree: a type in a namespace that is declared further down
in the same list sees the new statement from its own place.  So the forest looks alike from all nodes
outside of the later statements if there is no namespace in these.
-/

namespace DualSyntax

open Semantics (World LooksAlike ShowsSame)

namespace Forest

variable {f f' : Forest} {owner c : NodeId} {i : Nat}

/-- The node belongs to an inserted statement or to one that comes after it. -/
def Late (f : Forest) (owner c : NodeId) (i : Nat) (n : NodeId) : Prop :=
  ∃ s ∈ c :: (f.children owner .statements).drop i, Relation.ReflTransGen f.Below n s

def declaresNamespace (f : Forest) (n : NodeId) : Bool :=
  (f.descendants n).any fun m => f.kind m matches .namespaceDeclaration

def declaresType (f : Forest) (n : NodeId) : Bool :=
  (f.descendants n).any fun m => f.kind m matches .typeDeclaration _

theorem kind_ne_namespaceDeclaration {n m : NodeId} (hn : f.declaresNamespace n = false)
    (hm : m ∈ f.descendants n) : f.kind m ≠ .namespaceDeclaration := by
  intro hkind
  have hnot := List.any_eq_false.mp hn m hm
  rw [hkind] at hnot
  exact hnot rfl

theorem not_late_parent {n p : NodeId} (hn : ¬ f.Late owner c i n) (hparent : f.parent n = some p) :
    ¬ f.Late owner c i p :=
  fun ⟨s, hs, hps⟩ => hn ⟨s, hs, .head hparent hps⟩

theorem ne_of_not_late {n : NodeId} (hn : ¬ f.Late owner c i n) : n ≠ c := by
  rintro rfl
  exact hn ⟨n, List.mem_cons_self, .refl⟩

theorem not_mem_of_not_late {n : NodeId} (hn : ¬ f.Late owner c i n) :
    n ∉ (f.children owner .statements).drop i :=
  fun hmem => hn ⟨n, List.mem_cons_of_mem _ hmem, .refl⟩

namespace Inserted

variable (h : Inserted f f' owner c .statements i)

include h

theorem child_not_late {n m : NodeId} (hn : ¬ f.Late owner c i n) (hm : f.parent m = some n)
    (hlater : m ∉ (f.children owner .statements).drop i) : ¬ f.Late owner c i m := by
  rintro ⟨s, hs, hreach⟩
  rcases hreach.cases_head with rfl | ⟨p, hp, hps⟩
  · rcases List.mem_cons.mp hs with rfl | hs
    · rw [h.root] at hm
      cases hm
    · exact hlater hs
  · obtain rfl := Option.some.inj (hm.symm.trans hp)
    exact hn ⟨s, hs, hps⟩

variable (hf : f.WellLinked)

include hf

theorem owner_not_late : ¬ f.Late owner c i owner := by
  rintro ⟨s, hs, hreach⟩
  rcases List.mem_cons.mp hs with rfl | hs
  · exact (h.not_above hf).2.2 hreach
  · exact hf.acyclic owner (.tail' hreach (hf.parent_of_mem_children (List.mem_of_mem_drop hs)))

/-- The nodes of an earlier statement are outside of the later ones. -/
theorem not_late_of_earlier {s n : NodeId} {k : Nat} (hs : (f.children owner .statements)[k]? = some s)
    (hk : k < i) (hn : Relation.ReflTransGen f.Below n s) : ¬ f.Late owner c i n := by
  have hparent := hf.parent_of_mem_children (List.mem_of_getElem? hs)
  have hlater : s ∉ (f.children owner .statements).drop i := by
    have hearlier : s ∈ (f.children owner .statements).take i :=
      List.mem_of_getElem? ((List.getElem?_take_of_lt hk).trans hs)
    exact List.disjoint_take_drop (hf.nodup_children owner .statements) le_rfl hearlier
  induction hn using Relation.ReflTransGen.head_induction_on with
  | refl => exact h.child_not_late (h.owner_not_late hf) hparent hlater
  | head hbelow habove ih =>
      refine h.child_not_late ih hbelow fun hdrop => ?_
      obtain rfl := Option.some.inj (hbelow.symm.trans
        (hf.parent_of_mem_children (List.mem_of_mem_drop hdrop)))
      exact hf.acyclic _ (.tail' habove hparent)

theorem place {n p : NodeId} (hn : ¬ f.Late owner c i n) :
    (f'.children p .statements).findIdx? (· == n) = (f.children p .statements).findIdx? (· == n) := by
  by_cases hp : p = owner
  · subst hp
    have hne := ne_of_not_late hn
    have hlater := not_mem_of_not_late hn
    have hnone : ((f.children p .statements).drop i).findIdx? (· == n) = none := by
      rw [List.findIdx?_eq_none_iff]
      intro m hm
      rw [beq_eq_false_iff_ne]
      rintro rfl
      exact hlater hm
    have hinserted : (c :: (f.children p .statements).drop i).findIdx? (· == n) = none := by
      rw [List.findIdx?_cons, hnone]
      simpa using hne.symm
    rw [h.children_owner hf, List.findIdx?_append, hinserted]
    conv_rhs => rw [← List.take_append_drop i (f.children p .statements), List.findIdx?_append, hnone]
  · rw [h.children_of_ne hf (.inl hp)]

theorem shows (caseSensitive : Bool) {n p : NodeId} {k : Nat} (hn : ¬ f.Late owner c i n)
    (hp : f.parent n = some p)
    (hk : (f.children p .statements).findIdx? (· == n) = some k) :
    ShowsSame ⟨f, caseSensitive⟩ ⟨f', caseSensitive⟩ (fun n => ¬ f.Late owner c i n) p k := by
  by_cases heq : p = owner
  · subst heq
    obtain ⟨hlt, hfound, -⟩ := List.findIdx?_eq_some_iff_getElem.mp hk
    have hki : k < i := by
      by_contra hge
      refine not_mem_of_not_late hn (List.mem_drop_iff_getElem.mpr ⟨k - i, by omega, ?_⟩)
      simpa [show i + (k - i) = k by omega] using hfound
    refine ⟨?_, fun m hm => ?_⟩
    · change (f'.children p .statements).take (k + 1) = (f.children p .statements).take (k + 1)
      rw [h.children_owner hf, List.take_append_of_le_length (by rw [List.length_take]; omega),
        List.take_take, Nat.min_eq_left hki]
    · obtain ⟨j, hj, rfl⟩ := List.mem_take_iff_getElem.mp hm
      exact h.not_late_of_earlier hf (List.getElem?_eq_getElem (by omega)) (by omega) .refl
  · refine ⟨congrArg _ (h.children_of_ne hf (.inl heq)), fun m hm => ?_⟩
    have hparent := hf.parent_of_mem_children (List.mem_of_mem_take hm)
    refine h.child_not_late (not_late_parent hn hp) hparent fun hdrop => heq ?_
    exact Option.some.inj (hparent.symm.trans (hf.parent_of_mem_children (List.mem_of_mem_drop hdrop)))

/-- The forest looks the same from all nodes outside of the later statements. -/
theorem looksAlike (caseSensitive : Bool)
    (hnamespaces : ∀ s ∈ c :: (f.children owner .statements).drop i, f.declaresNamespace s = false) :
    LooksAlike ⟨f, caseSensitive⟩ ⟨f', caseSensitive⟩ fun n => ¬ f.Late owner c i n where
  caseSensitive := rfl
  size := h.size
  kind := h.kind
  parent hn := by rw [h.parent hf, if_neg (ne_of_not_late hn)]
  parent_seen := not_late_parent
  title hn := h.titleInParent? hf (ne_of_not_late hn)
  children _ t ht := h.children_of_ne hf (.inr ht.symm)
  children_seen {n} hn t ht m hm := by
    refine h.child_not_late hn (hf.parent_of_mem_children hm) fun hdrop => ?_
    have hstatement := List.mem_of_mem_drop hdrop
    obtain rfl := Option.some.inj ((hf.parent_of_mem_children hm).symm.trans
      (hf.parent_of_mem_children hstatement))
    exact hf.not_mem_children ht hm hstatement
  place hn _ := h.place hf hn
  shows hn hp hk := h.shows hf caseSensitive hn hp hk
  namespaces _ p hp := by
    refine h.filter_descendants hf (fun m hm => ?_) _
    refine Bool.eq_false_iff.mpr fun hkind => ?_
    exact kind_ne_namespaceDeclaration (hnamespaces c List.mem_cons_self) hm (hp m hkind)
  namespaces_seen {n} hn m hm hkind := by
    rintro ⟨s, hs, hreach⟩
    exact kind_ne_namespaceDeclaration (hnamespaces s hs) (hf.mem_descendants_iff.mpr hreach) hkind

end Inserted

end Forest

namespace Semantics

theorem exists_resolutionOf {f : Forest} (hf : f.WellLinked) (caseSensitive : Bool) (n : NodeId) :
    ∃ resolution, f.ask? caseSensitive (resolutionOf n) = some resolution := by
  have hexpressions := (settles_answersFor (w := ⟨f, caseSensitive⟩) hf []).2
  have hsettles : Settles ⟨f, caseSensitive⟩ [] (resolutionOf n) fun _ => True :=
    .bind (.forest (settles_meaningAt hexpressions n)) fun m _ =>
      .bind (.forest (settles_constant hf [] m)) fun _ _ => .pure trivial
  obtain ⟨resolution, spellings, hrun, -⟩ := hsettles []
  refine ⟨resolution, ?_⟩
  change (resolutionOf n ⟨f, caseSensitive⟩ {}).map _ = _
  rw [hrun]
  rfl

/-- A statement that is inserted behind another one changes nothing about the nodes of that one: they
come to the same meaning and the same constant value, unless a namespace is declared in the inserted
statement or in one that comes after it. -/
theorem laterStatement_keeps_resolution {f f' : Forest} (hf : f.WellLinked) (caseSensitive : Bool)
    {block new s n : NodeId} {i k : Nat} (hs : (f.children block .statements)[k]? = some s)
    (hn : n ∈ f.descendants s) (hk : k < i) (hnew : f.parent new = none)
    (hinsert : f.insertChild? block .statements i new = some f')
    (hnamespaces : ∀ later ∈ new :: (f.children block .statements).drop i,
      f.declaresNamespace later = false) :
    ∃ resolution, f.ask? caseSensitive (resolutionOf n) = some resolution ∧
      f'.ask? caseSensitive (resolutionOf n) = some resolution := by
  have hinserted : f.Inserted f' block new .statements i := ⟨hnew, hinsert⟩
  have hlooks := hinserted.looksAlike hf caseSensitive hnamespaces
  have hearlier := hinserted.not_late_of_earlier hf hs hk (hf.mem_descendants_iff.mp hn)
  obtain ⟨resolution, hresolution⟩ := exists_resolutionOf hf caseSensitive n
  refine ⟨resolution, hresolution, ?_⟩
  rw [(hlooks.coincide_resolutionOf hearlier).ask?_eq, hresolution]

/-- A block with the member access `N.T.x` and the declaration of a namespace `N` with a class `T`, whose
field `x` has the initial value `v`; and the declaration of a variable `v`, which is in no tree. -/
def namespaceInBlock : Forest :=
  Forest.performAll {} [.allocate .compilationUnit {}, .allocate .blockStatement {},
    .allocate (.memberReferenceExpression false) {}, .allocate (.identifier "x") {},
    .allocate (.memberReferenceExpression false) {}, .allocate (.identifier "T") {},
    .allocate .identifierExpression {}, .allocate (.identifier "N") {},
    .allocate .namespaceDeclaration {}, .allocate .simpleType {}, .allocate (.identifier "N") {},
    .allocate (.typeDeclaration .classType) {}, .allocate (.identifier "T") {},
    .allocate .fieldDeclaration {}, .allocate .variableDeclarator {}, .allocate (.identifier "x") {},
    .allocate .identifierExpression {}, .allocate (.identifier "v") {},
    .allocate .variableDeclarationStatement {}, .allocate (.primitiveType .int32) {},
    .allocate .variableDeclarator {}, .allocate (.identifier "v") {},
    .append 0 .members 1, .extend 1 .statements [2, 8],
    .append 2 .identifier 3, .append 2 .target 4, .append 4 .identifier 5, .append 4 .target 6,
    .append 6 .identifier 7,
    .append 8 .fullName 9, .append 9 .identifier 10, .append 8 .members 11,
    .append 11 .identifier 12, .append 11 .members 13, .append 13 .declarators 14,
    .append 14 .identifier 15, .append 14 .initializer 16, .append 16 .identifier 17,
    .append 18 .type 19, .append 18 .declarators 20, .append 20 .identifier 21]

theorem namespaceInBlock_wellLinked : namespaceInBlock.WellLinked :=
  Forest.WellLinked.empty.performAll _

/-- The block with the variable at a place among its statements. -/
def namespaceInBlockWith (i : Nat) : Forest :=
  namespaceInBlock.link 1 18 (Forest.insertSlot .statements 18 i)

/-- The member access is the first statement, and the variable stands in no tree and declares neither a
namespace nor a type. -/
theorem namespaceInBlock_statements :
    (namespaceInBlock.children 1 .statements)[0]? = some 2 ∧ namespaceInBlock.parent 18 = none ∧
    namespaceInBlock.canAttach 1 18 = true ∧ namespaceInBlock.declaresNamespace 18 = false ∧
    namespaceInBlock.declaresType 18 = false := by
  decide +kernel

theorem namespaceInBlock_insert (i : Nat) :
    namespaceInBlock.insertChild? 1 .statements i 18 = some (namespaceInBlockWith i) := by
  obtain ⟨-, hparent, hcanAttach, -⟩ := namespaceInBlock_statements
  rw [Forest.insertChild?, if_pos hcanAttach, Forest.detach_of_parent_eq_none hparent]
  rfl

/-- Behind the namespace, the variable changes nothing about the member access. -/
theorem laterStatement_keeps_resolution_namespaceInBlock :
    (namespaceInBlock.children 1 .statements)[0]? = some 2 ∧ 2 ∈ namespaceInBlock.descendants 2 ∧
    (∀ later ∈ 18 :: (namespaceInBlock.children 1 .statements).drop 2,
      namespaceInBlock.declaresNamespace later = false) ∧
    ∃ resolution, namespaceInBlock.ask? true (resolutionOf 2) = some resolution ∧
      (namespaceInBlockWith 2).ask? true (resolutionOf 2) = some resolution := by
  obtain ⟨hfirst, hparent, -⟩ := namespaceInBlock_statements
  have hnode : 2 ∈ namespaceInBlock.descendants 2 :=
    namespaceInBlock_wellLinked.mem_descendants_iff.mpr .refl
  have hnamespaces : ∀ later ∈ 18 :: (namespaceInBlock.children 1 .statements).drop 2,
      namespaceInBlock.declaresNamespace later = false := by decide +kernel
  exact ⟨hfirst, hnode, hnamespaces, laterStatement_keeps_resolution namespaceInBlock_wellLinked true
    hfirst hnode (by decide) hparent (namespaceInBlock_insert 2) hnamespaces⟩

/-- In front of the namespace, it gives the member access a type, though it stands behind that and
declares no namespace and no type itself. -/
theorem laterStatement_changes_resolution_namespaceInBlock :
    namespaceInBlock.WellLinked ∧ namespaceInBlock.kind 1 == .blockStatement ∧
    (namespaceInBlock.children 1 .statements)[0]? = some 2 ∧
    namespaceInBlock.parent 18 = none ∧
    namespaceInBlock.insertChild? 1 .statements 1 18 = some (namespaceInBlockWith 1) ∧
    namespaceInBlock.declaresNamespace 18 = false ∧ namespaceInBlock.declaresType 18 = false ∧
    (namespaceInBlockWith 1).ask? true (resolutionOf 2) ≠
      namespaceInBlock.ask? true (resolutionOf 2) := by
  obtain ⟨hfirst, hparent, -, hnamespace, htype⟩ := namespaceInBlock_statements
  have htypes : namespaceInBlock.kind 1 == .blockStatement ∧
      (namespaceInBlock.ask? true (resolutionOf 2)).map (·.1.type?) = some none ∧
      ((namespaceInBlockWith 1).ask? true (resolutionOf 2)).map (·.1.type?) =
        some (some (.known .int32)) := by
    decide +kernel
  obtain ⟨hblock, hbefore, hafter⟩ := htypes
  refine ⟨namespaceInBlock_wellLinked, hblock, hfirst, hparent, namespaceInBlock_insert 1, hnamespace,
    htype, fun hsame => ?_⟩
  rw [hsame, hbefore] at hafter
  cases hafter

end Semantics

end DualSyntax
