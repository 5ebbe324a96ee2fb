import TreeFigure.Drawing
import TreeFigure.Store
import TreeFigure.Proofs.Record
import TreeFigure.Proofs.Source.Lines

/-!
Loading a line that was written. A tree and its tokens that are written to one line of a file are
loaded again, whatever the other lines hold and however the line ends.
-/

namespace TreeFigure

open Text

namespace Record

/-- The only blank characters of a written record are spaces. -/
theorem eq_space_of_mem_written {tree : Tree} {tokens : List String} (htree : tree.Writable)
    (htokens : ∀ token ∈ tokens, IsToken token.toList) {c : Char}
    (h : c ∈ (written tree.bracketed tokens).toList) (hblank : isBlank c = true) : c = ' ' := by
  rw [toList_written, Tree.bracketed, String.toList_ofList, List.mem_append,
    List.mem_append] at h
  rcases h with htext | hmark | hfield
  · rcases Tree.mem_bracketedChars htext with hnotation | ⟨text, hmem, hin⟩
    · simp only [List.mem_cons, List.not_mem_nil, or_false] at hnotation
      rcases hnotation with rfl | rfl | rfl
      · exact absurd hblank (by decide)
      · rfl
      · exact absurd hblank (by decide)
    · have hplain := (htree.writable_of_mem_texts text hmem).noBlank c hin
      exact absurd hblank (by simp [hplain])
  · rcases mem_mark hmark with rfl | rfl
    · rfl
    · exact absurd hblank (by decide)
  · rcases mem_intercalate hfield with hspace | ⟨part, hpart, hin⟩
    · exact hspace
    · obtain ⟨token, hmem, rfl⟩ := List.mem_map.mp hpart
      have hplain := (htokens token hmem).2 c hin
      exact absurd hblank (by simp [hplain])

end Record

namespace Drawing

open Record Source

theorem readRecord_written {label : String} {children : Forest} {tokens : List String}
    (htree : (Tree.node label children).Writable) (hne : tokens ≠ [])
    (htokens : ∀ token ∈ tokens, IsToken token.toList)
    (hbars : "|||||" ∉ tokens.tail.dropLast) :
    readRecord (written (Tree.node label children).bracketed tokens) =
      .ok ⟨⟨(Tree.node label children).bracketed, tokens⟩, .node label children⟩ := by
  rw [readRecord, parse_written hne htokens hbars htree.not_mark_isInfix]
  simp only [htree.parseWith_bracketed]

/-- A tree and tokens that were written to one line of a file are loaded again, and nothing is
changed. The lines before it and the bytes after it are arbitrary. -/
theorem load_written {label : String} {children : Forest} {tokens : List String}
    (htree : (Tree.node label children).Writable) (hne : tokens ≠ [])
    (htokens : ∀ token ∈ tokens, IsToken token.toList)
    (hbars : "|||||" ∉ tokens.tail.dropLast) {before : List (List UInt8)}
    (hbefore : ∀ line ∈ before, lineFeed ∉ line) {ending : List UInt8} (hending : Ending ending)
    {store : Store} {path : String}
    (hfile : store.openFile path = .ok
      { bytes := terminated before ++
          (encode (written (Tree.node label children).bracketed tokens) ++ ending) }) :
    load Store.system path before.length store =
      (.ok ⟨⟨(Tree.node label children).bracketed, tokens⟩, .node label children⟩, store) := by
  let text := written (Tree.node label children).bracketed tokens
  have hspace : ∀ c ∈ text.toList, isBlank c = true → c = ' ' :=
    fun c hc hblank => eq_space_of_mem_written htree htokens hc hblank
  have hfeed : lineFeed ∉ encode text := by
    intro hmem
    have hin : '\n' ∈ text.toList := mem_toList_of_mem_encode (by decide) (by decide) hmem
    exact absurd (hspace '\n' hin (by decide)) (by decide)
  have hreturn : carriageReturn ∉ encode text := by
    intro hmem
    have hin : '\r' ∈ text.toList := mem_toList_of_mem_encode (by decide) (by decide) hmem
    exact absurd (hspace '\r' hin (by decide)) (by decide)
  have hnonempty : text ≠ "" := by
    intro hempty
    have hmark : ' ' ∈ text.toList := by
      rw [toList_written, toList_mark]
      simp
    rw [hempty] at hmark
    simp at hmark
  obtain ⟨line, hline, hdrop⟩ := exists_line hbefore (encode_ne_nil hnonempty) hfeed hreturn hending
  have hselect : selectLine path before.length (store.openFile path) = .ok text := by
    rw [hfile, selectLine]
    simp only [available, hline, hdrop, text, decode?_encode]
  have hload : loadFrom path before.length (store.openFile path) =
      .ok ⟨⟨(Tree.node label children).bracketed, tokens⟩, .node label children⟩ := by
    rw [loadFrom, hselect]
    exact readRecord_written htree hne htokens hbars
  exact Prod.ext hload rfl

/-- Bars that are a last leaf, a first and a last token, between lines that are no text. -/
theorem load_written_bars :
    let tree : Tree := .node "S(_" [.node "NP" [.leaf "(_x", .leaf "|||||"], .node "" []]
    let store : Store := { files := [("bank", terminated [[0xff, carriageReturn]] ++
      (encode "(S(_ (NP (_x |||||) ()) ||||| ||||| b |||||" ++
        [carriageReturn, lineFeed, 0xfe]))] }
    load Store.system "bank" 1 store =
      (.ok ⟨⟨"(S(_ (NP (_x |||||) ())", ["|||||", "b", "|||||"]⟩, tree⟩, store) := by
  intro tree store
  have hempty : (Tree.node "" []).Writable :=
    .node (by decide) (by decide) (fun _ => id) (by simp) (by simp)
  have hliteral : (Tree.leaf "(_x").Writable := .leaf (by decide) (by decide)
  have hbars : (Tree.leaf "|||||").Writable := .leaf (by decide) (by decide)
  have hphrase : (Tree.node "NP" [.leaf "(_x", .leaf "|||||"]).Writable :=
    .node (by decide) (by decide) (by simp) (by simp) (by simp [hliteral, hbars])
  have htree : tree.Writable :=
    .node (by decide) (by decide) (by simp) (by simp) (by simp [hphrase, hempty])
  have hloaded : load Store.system "bank" [[0xff, carriageReturn]].length store =
      (.ok ⟨⟨tree.bracketed, ["|||||", "b", "|||||"]⟩, tree⟩, store) :=
    load_written htree (by simp) (by decide) (by decide) (by decide) (.returnFeed [0xfe]) rfl
  exact hloaded

end Drawing

end TreeFigure
