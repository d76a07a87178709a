import AtomicCss.Sheet.Event

/-!
The writer of a sheet follows its events. What is written and the rendering of the events to come
make up one text, and no step of the writer changes this text.
-/

namespace AtomicCss.Sheet

namespace Writer

section Steps

variable (writer : Writer)

@[simp] theorem minify_push (text : String) : (writer.push text).minify = writer.minify := rfl

@[simp] theorem out_push (text : String) : (writer.push text).out = writer.out ++ text := rfl

theorem push_push (first second : String) :
    (writer.push first).push second = writer.push (first ++ second) := by
  simp [push, String.append_assoc]

theorem push_empty : writer.push "" = writer := by
  simp [push]

theorem indent_of_minify (h : writer.minify = true) (depth : Nat) :
    writer.indent depth = writer := by
  rw [indent, if_pos h]

theorem indent_of_pretty (h : writer.minify = false) (depth : Nat) :
    writer.indent depth = writer.push (indentation depth) := by
  rw [indent, if_neg (by simp [h])]
  clear h
  induction depth generalizing writer with
  | zero => exact writer.push_empty.symm
  | succ depth ih => rw [List.replicate_succ, List.foldl_cons, ih, push_push, indentation]

@[simp] theorem minify_indent (depth : Nat) : (writer.indent depth).minify = writer.minify := by
  cases h : writer.minify with
  | true => rw [indent_of_minify writer h, h]
  | false => rw [indent_of_pretty writer h, minify_push, h]

theorem foldl_pushDeclaration (declarations : List Declaration) :
    declarations.foldl pushDeclaration writer =
      writer.push (String.join (declarations.map fun declaration =>
        " " ++ declaration.render ++ ";")) := by
  induction declarations generalizing writer with
  | nil => exact writer.push_empty.symm
  | cons declaration rest ih =>
      rw [List.foldl_cons, ih, pushDeclaration, push_push, push_push, push_push, List.map_cons,
        String.join_cons]
      simp only [String.append_assoc]

theorem block_of_minify (h : writer.minify = true) (selector : String)
    (declarations : List Declaration) (depth : Nat) :
    writer.block selector declarations depth =
      writer.push (Event.block selector declarations).renderMinified := by
  simp only [block, indent_of_minify writer h, minify_push, h, if_true, push_push,
    Event.renderMinified]

theorem block_of_pretty (h : writer.minify = false) (selector : String)
    (declarations : List Declaration) (depth : Nat) :
    writer.block selector declarations depth =
      writer.push (indentation depth ++ selector ++ " \x7b" ++
        String.join (declarations.map fun declaration => " " ++ declaration.render ++ ";") ++
        " \x7d\n") := by
  simp only [block, indent_of_pretty writer h, minify_push, h, Bool.false_eq_true, if_false,
    foldl_pushDeclaration, push_push]

@[simp] theorem minify_block (selector : String) (declarations : List Declaration)
    (depth : Nat) : (writer.block selector declarations depth).minify = writer.minify := by
  cases h : writer.minify with
  | true => rw [block_of_minify writer h, minify_push, h]
  | false => rw [block_of_pretty writer h, minify_push, h]

@[simp] theorem minify_ownBlock (selector : Option String) (children : List Node)
    (depth : Nat) : (writer.ownBlock selector children depth).minify = writer.minify := by
  rw [ownBlock.eq_def]
  split
  · exact minify_block ..
  · rfl

end Steps

mutual

theorem minify_node (parent : Option String) (depth : Nat) (writer : Writer) :
    ∀ node : Node, (writer.node parent depth node).minify = writer.minify
  | .declaration _ => rfl
  | .rule selector children => by
      rw [node, minify_nodes, minify_ownBlock]
  | .atRule head children => by
      rw [node, closeBlock, minify_push, minify_indent, minify_nodes, minify_ownBlock, openBlock,
        minify_push, minify_push, minify_indent]

theorem minify_nodes (parent : Option String) (depth : Nat) (writer : Writer) :
    ∀ nodes : List Node, (writer.nodes parent depth nodes).minify = writer.minify
  | [] => rfl
  | node :: rest => by
      rw [nodes, minify_nodes, minify_node]

end

/-- What is written, completed by a rendering of events to come. -/
def completed (text : Nat → List Event → String) (writer : Writer) (depth : Nat)
    (events : List Event) : String :=
  writer.out ++ text depth events

/-- A rendering of events that a writer in this layout can be completed by: writing an event moves
text from one part to the other. -/
structure IsCompletion (minify : Bool) (text : Nat → List Event → String) : Prop where
  nil : ∀ depth, text depth [] = ""
  opening : ∀ writer : Writer, writer.minify = minify → ∀ depth head rest,
    ((writer.indent depth).push head.render).openBlock.completed text (depth + 1) rest =
      writer.completed text depth (.opening head :: rest)
  block : ∀ writer : Writer, writer.minify = minify → ∀ depth selector declarations rest,
    (writer.block selector declarations depth).completed text depth rest =
      writer.completed text depth (.block selector declarations :: rest)
  closing : ∀ writer : Writer, writer.minify = minify → ∀ depth rest,
    (writer.closeBlock depth).completed text depth rest =
      writer.completed text (depth + 1) (.closing :: rest)

theorem isCompletion_renderPretty : IsCompletion false renderPretty where
  nil _ := rfl
  opening writer h depth head rest := by
    simp [completed, openBlock, indent_of_pretty writer h, h, renderPretty, String.append_assoc]
  block writer h depth selector declarations rest := by
    simp [completed, block_of_pretty writer h, renderPretty, String.append_assoc]
  closing writer h depth rest := by
    simp [completed, closeBlock, indent_of_pretty writer h, h, renderPretty, String.append_assoc]

theorem isCompletion_renderMinified : IsCompletion true fun _ => renderMinified where
  nil _ := rfl
  opening writer h depth head rest := by
    simp [completed, openBlock, indent_of_minify writer h, h, renderMinified,
      Event.renderMinified, String.append_assoc]
  block writer h depth selector declarations rest := by
    simp [completed, block_of_minify writer h, renderMinified, String.append_assoc]
  closing writer h depth rest := by
    simp [completed, closeBlock, indent_of_minify writer h, h, renderMinified,
      Event.renderMinified, String.append_assoc]

section Completion

variable {minify : Bool} {text : Nat → List Event → String}

theorem completed_ownBlock (htext : IsCompletion minify text) (writer : Writer)
    (h : writer.minify = minify) (selector : Option String) (children : List Node) (depth : Nat)
    (rest : List Event) :
    (writer.ownBlock selector children depth).completed text depth rest =
      writer.completed text depth (Sheet.ownBlock selector children ++ rest) := by
  rw [ownBlock.eq_def, Sheet.ownBlock.eq_def]
  cases selector with
  | none => rfl
  | some selector =>
      cases ownDeclarations children with
      | nil => rfl
      | cons declaration declarations => exact htext.block writer h ..

mutual

theorem completed_node (htext : IsCompletion minify text) (parent : Option String)
    (depth : Nat) (writer : Writer) (h : writer.minify = minify) :
    ∀ (node : Node) (rest : List Event),
      (writer.node parent depth node).completed text depth rest =
        writer.completed text depth (node.events parent ++ rest)
  | .declaration _, rest => rfl
  | .rule selector children, rest => by
      rw [node, Node.events, List.append_assoc,
        completed_nodes htext _ depth _ (by rw [minify_ownBlock, h]),
        completed_ownBlock htext writer h]
  | .atRule head children, rest => by
      have hopened : ((writer.indent depth).push head.render).openBlock.minify = minify := by
        rw [openBlock, minify_push, minify_push, minify_indent, h]
      rw [node, Node.events, htext.closing _ (by rw [minify_nodes, minify_ownBlock, hopened]),
        completed_nodes htext parent (depth + 1) _ (by rw [minify_ownBlock, hopened]),
        completed_ownBlock htext _ hopened, htext.opening writer h, List.cons_append,
        List.append_assoc, List.append_assoc, List.singleton_append]

theorem completed_nodes (htext : IsCompletion minify text) (parent : Option String)
    (depth : Nat) (writer : Writer) (h : writer.minify = minify) :
    ∀ (nodes : List Node) (rest : List Event),
      (writer.nodes parent depth nodes).completed text depth rest =
        writer.completed text depth (Node.eventsList parent nodes ++ rest)
  | [], rest => rfl
  | node :: nodes, rest => by
      rw [Writer.nodes, Node.eventsList, List.append_assoc,
        completed_nodes htext parent depth _ (by rw [minify_node, h]),
        completed_node htext parent depth writer h]

end

/-- Once all events are written, nothing is left to complete. -/
theorem out_nodes (htext : IsCompletion minify text) (nodes : List Node) :
    (({ minify } : Writer).nodes none 0 nodes).out = text 0 (events nodes) := by
  have hcompleted := completed_nodes htext none 0 { minify } rfl nodes []
  rw [completed, htext.nil, completed, List.append_nil, String.append_empty] at hcompleted
  rw [hcompleted]
  exact String.empty_append

end Completion

end Writer

/-! Pretty text consists of whole lines, so the line break at the end is there already. -/

def IsLines (text : String) : Prop :=
  text = "" ∨ text.toList.getLast? = some '\n'

theorem IsLines.append {stop text : String} (hstop : stop.toList.getLast? = some '\n')
    (htext : IsLines text) (front : String) : IsLines (front ++ stop ++ text) := by
  right
  rw [String.toList_append, String.toList_append, List.getLast?_append, List.getLast?_append, hstop]
  rcases htext with hempty | hlast
  · rw [hempty]
    rfl
  · rw [hlast]
    rfl

theorem isLines_renderPretty (depth : Nat) (events : List Event) :
    IsLines (renderPretty depth events) := by
  induction events generalizing depth with
  | nil => exact .inl rfl
  | cons event rest ih =>
      cases event with
      | opening head => exact (ih (depth + 1)).append rfl _
      | block selector declarations => exact (ih depth).append rfl _
      | closing => exact (ih (depth - 1)).append rfl _

theorem render_pretty (nodes : List Node) :
    render false nodes = renderPretty 0 (events nodes) := by
  rw [render, Writer.finish, Writer.out_nodes Writer.isCompletion_renderPretty, if_pos]
  rcases isLines_renderPretty 0 (events nodes) with hempty | hlast
  · simp [hempty]
  · simp [hlast]

theorem render_minified (nodes : List Node) :
    render true nodes = renderMinified (events nodes) := by
  rw [render, Writer.finish, Writer.minify_nodes]
  exact Writer.out_nodes Writer.isCompletion_renderMinified nodes

end AtomicCss.Sheet
