import NovelDag.WahooNode

/-!
# What committing changes

The commit pipeline of a Wahoo node extends its chain and adds the blocks it commits to the trace.
The rest of the node stays as it is.
-/

namespace NovelDag.Wahoo

/-- The second node is the first one after some commits. -/
def Commits (n n' : Node) : Prop :=
  ∃ chain iterations new, (∀ e ∈ new, ∃ b, e = (Effect.commit b, n.dag)) ∧
    n' = { n with chain, iterations, trace := n.trace ++ new }

namespace Commits

theorem refl (n : Node) : Commits n n := ⟨n.chain, n.iterations, [], by simp, by simp⟩

theorem trans {n₁ n₂ n₃ : Node} (h₁ : Commits n₁ n₂) (h₂ : Commits n₂ n₃) : Commits n₁ n₃ := by
  obtain ⟨chain₁, i₁, new₁, hn₁, rfl⟩ := h₁
  obtain ⟨chain₂, i₂, new₂, hn₂, rfl⟩ := h₂
  refine ⟨chain₂, i₂, new₁ ++ new₂, fun e he => ?_, by simp⟩
  exact (List.mem_append.1 he).elim (hn₁ e) (hn₂ e)

theorem ofChain (n : Node) (chain : Chain) : Commits n { n with chain } :=
  ⟨chain, n.iterations, [], by simp, by simp⟩

theorem iterate (n : Node) : Commits n { n with iterations := n.iterations + 1 } :=
  ⟨n.chain, n.iterations + 1, [], by simp, by simp⟩

theorem emit (n : Node) (b : Header) : Commits n (n.emit (.commit b)) :=
  ⟨n.chain, n.iterations, [(.commit b, n.dag)], by simp, rfl⟩

/-- A loop of commits. -/
theorem foldl {α β : Type} {f : Node × β → α → Node × β}
    (hf : ∀ p a, Commits p.1 (f p a).1) : ∀ (l : List α) (p : Node × β), Commits p.1 (l.foldl f p).1
  | [], p => refl p.1
  | a :: l, p => (hf p a).trans (foldl hf l (f p a))

theorem commitBlock (round : ℕ) (leader : PublicKey) (r : ℕ)
    (p : Node × FinMap Digest Header) (e : Digest × Header) :
    Commits p.1 (Node.commitBlock round leader r p e).1 := by
  obtain ⟨n, nextLevel⟩ := p
  unfold Node.commitBlock
  simp only []
  split_ifs
  · exact refl n
  · exact ofChain n _
  · exact (ofChain n _).trans (emit _ e.2)

theorem commitLevels (order : HashOrder) (round : ℕ) (leader : PublicKey) :
    ∀ (r : ℕ) (n : Node) (level : FinMap Digest Header),
      Commits n (Node.commitLevels order round leader r n level)
  | 0, n, level =>
    (iterate n).trans (foldl (commitBlock round leader 0) _
      (({ n with iterations := n.iterations + 1 } : Node), (∅ : FinMap Digest Header)))
  | r + 1, n, level => by
    have h := (iterate n).trans (foldl (commitBlock round leader (r + 1))
      (order.order n.iterations (level.entries.map fun e => (e.1, e.2)))
      (({ n with iterations := n.iterations + 1 } : Node), (∅ : FinMap Digest Header)))
    unfold Node.commitLevels
    simp only []
    split_ifs
    · exact h
    · exact h.trans (commitLevels order round leader r _ _)

variable [Crypto]

theorem commitAncestorBlocks (order : HashOrder) (n : Node) (round : ℕ) :
    Commits n (n.commitAncestorBlocks order round) := by
  unfold Node.commitAncestorBlocks
  split
  · exact refl n
  · split
    · exact refl n
    · exact commitLevels order round _ round n _

theorem commitAncestorLeader (order : HashOrder) (valid : FinMap ℕ PublicKey) (n : Node) (r : ℕ) :
    Commits n (n.commitAncestorLeader order valid r) := by
  unfold Node.commitAncestorLeader
  split
  · split
    · exact refl n
    · exact ((ofChain n _).trans (emit _ _)).trans (commitAncestorBlocks order _ r)
  · exact refl n

theorem tryToCommitAncestorLeader (order : HashOrder) (n : Node) (round : ℕ) :
    Commits n (n.tryToCommitAncestorLeader order round) := by
  unfold Node.tryToCommitAncestorLeader
  split_ifs
  · exact refl n
  · refine List.foldlRecOn _ (Node.commitAncestorLeader order (n.findValidLeader round))
      (motive := Commits n) (refl n) fun n' h r _ => ?_
    exact h.trans (commitAncestorLeader order _ n' r)

theorem tryToCommitLeader (order : HashOrder) (round : ℕ) (n : Node) :
    Commits n (n.tryToCommitLeader order round) := by
  unfold Node.tryToCommitLeader
  split_ifs
  · exact refl n
  · split
    · exact refl n
    · split_ifs
      · exact refl n
      · split
        · exact refl n
        · exact (((tryToCommitAncestorLeader order n round).trans (ofChain _ _)).trans
            (commitAncestorBlocks order _ round)).trans (emit _ _)

end Commits

end NovelDag.Wahoo
