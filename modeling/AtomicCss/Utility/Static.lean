import AtomicCss.Utility.Basic

/-!
Class names with fixed declarations.
-/

namespace AtomicCss.Utility

def staticTable : List (String × List (String × String)) :=
  [("block", [("display", "block")]),
    ("inline-block", [("display", "inline-block")]),
    ("inline", [("display", "inline")]),
    ("flex", [("display", "flex")]),
    ("inline-flex", [("display", "inline-flex")]),
    ("grid", [("display", "grid")]),
    ("inline-grid", [("display", "inline-grid")]),
    ("contents", [("display", "contents")]),
    ("table", [("display", "table")]),
    ("flow-root", [("display", "flow-root")]),
    ("hidden", [("display", "none")]),
    ("static", [("position", "static")]),
    ("fixed", [("position", "fixed")]),
    ("absolute", [("position", "absolute")]),
    ("relative", [("position", "relative")]),
    ("sticky", [("position", "sticky")]),
    ("visible", [("visibility", "visible")]),
    ("invisible", [("visibility", "hidden")]),
    ("collapse", [("visibility", "collapse")]),
    ("isolate", [("isolation", "isolate")]),
    ("flex-row", [("flex-direction", "row")]),
    ("flex-row-reverse", [("flex-direction", "row-reverse")]),
    ("flex-col", [("flex-direction", "column")]),
    ("flex-col-reverse", [("flex-direction", "column-reverse")]),
    ("flex-wrap", [("flex-wrap", "wrap")]),
    ("flex-nowrap", [("flex-wrap", "nowrap")]),
    ("flex-1", [("flex", "1 1 0%")]),
    ("flex-auto", [("flex", "1 1 auto")]),
    ("flex-initial", [("flex", "0 1 auto")]),
    ("flex-none", [("flex", "none")]),
    ("grow", [("flex-grow", "1")]),
    ("grow-0", [("flex-grow", "0")]),
    ("shrink", [("flex-shrink", "1")]),
    ("shrink-0", [("flex-shrink", "0")]),
    ("items-start", [("align-items", "flex-start")]),
    ("items-end", [("align-items", "flex-end")]),
    ("items-center", [("align-items", "center")]),
    ("items-baseline", [("align-items", "baseline")]),
    ("items-stretch", [("align-items", "stretch")]),
    ("justify-start", [("justify-content", "flex-start")]),
    ("justify-end", [("justify-content", "flex-end")]),
    ("justify-center", [("justify-content", "center")]),
    ("justify-between", [("justify-content", "space-between")]),
    ("justify-around", [("justify-content", "space-around")]),
    ("justify-evenly", [("justify-content", "space-evenly")]),
    ("self-auto", [("align-self", "auto")]),
    ("self-start", [("align-self", "flex-start")]),
    ("self-end", [("align-self", "flex-end")]),
    ("self-center", [("align-self", "center")]),
    ("self-stretch", [("align-self", "stretch")]),
    ("place-items-center", [("place-items", "center")]),
    ("place-content-center", [("place-content", "center")]),
    ("text-left", [("text-align", "left")]),
    ("text-center", [("text-align", "center")]),
    ("text-right", [("text-align", "right")]),
    ("text-justify", [("text-align", "justify")]),
    ("italic", [("font-style", "italic")]),
    ("not-italic", [("font-style", "normal")]),
    ("underline", [("text-decoration-line", "underline")]),
    ("line-through", [("text-decoration-line", "line-through")]),
    ("no-underline", [("text-decoration-line", "none")]),
    ("uppercase", [("text-transform", "uppercase")]),
    ("lowercase", [("text-transform", "lowercase")]),
    ("capitalize", [("text-transform", "capitalize")]),
    ("normal-case", [("text-transform", "none")]),
    ("truncate",
      [("overflow", "hidden"), ("text-overflow", "ellipsis"), ("white-space", "nowrap")]),
    ("antialiased",
      [("-webkit-font-smoothing", "antialiased"), ("-moz-osx-font-smoothing", "grayscale")]),
    ("subpixel-antialiased",
      [("-webkit-font-smoothing", "auto"), ("-moz-osx-font-smoothing", "auto")]),
    ("sr-only",
      [("position", "absolute"), ("width", "1px"), ("height", "1px"), ("padding", "0"),
        ("margin", "-1px"), ("overflow", "hidden"), ("clip", "rect(0, 0, 0, 0)"),
        ("white-space", "nowrap"), ("border-width", "0")]),
    ("not-sr-only",
      [("position", "static"), ("width", "auto"), ("height", "auto"), ("padding", "0"),
        ("margin", "0"), ("overflow", "visible"), ("clip", "auto"), ("white-space", "normal")]),
    ("overflow-auto", [("overflow", "auto")]),
    ("overflow-hidden", [("overflow", "hidden")]),
    ("overflow-clip", [("overflow", "clip")]),
    ("overflow-visible", [("overflow", "visible")]),
    ("overflow-scroll", [("overflow", "scroll")]),
    ("overflow-x-auto", [("overflow-x", "auto")]),
    ("overflow-y-auto", [("overflow-y", "auto")]),
    ("whitespace-normal", [("white-space", "normal")]),
    ("whitespace-nowrap", [("white-space", "nowrap")]),
    ("whitespace-pre", [("white-space", "pre")]),
    ("whitespace-pre-wrap", [("white-space", "pre-wrap")]),
    ("break-words", [("overflow-wrap", "break-word")]),
    ("break-all", [("word-break", "break-all")]),
    ("cursor-pointer", [("cursor", "pointer")]),
    ("cursor-default", [("cursor", "default")]),
    ("cursor-not-allowed", [("cursor", "not-allowed")]),
    ("pointer-events-none", [("pointer-events", "none")]),
    ("pointer-events-auto", [("pointer-events", "auto")]),
    ("select-none", [("-webkit-user-select", "none"), ("user-select", "none")]),
    ("select-text", [("-webkit-user-select", "text"), ("user-select", "text")]),
    ("select-all", [("-webkit-user-select", "all"), ("user-select", "all")]),
    ("appearance-none", [("-webkit-appearance", "none"), ("appearance", "none")]),
    ("border-solid", [("border-style", "solid")]),
    ("border-dashed", [("border-style", "dashed")]),
    ("border-dotted", [("border-style", "dotted")]),
    ("border-none", [("border-style", "none")]),
    ("box-border", [("box-sizing", "border-box")]),
    ("box-content", [("box-sizing", "content-box")]),
    ("object-contain", [("object-fit", "contain")]),
    ("object-cover", [("object-fit", "cover")]),
    ("transition",
      [("transition-property",
          "color, background-color, border-color, opacity, box-shadow, transform"),
        ("transition-timing-function", "cubic-bezier(0.4, 0, 0.2, 1)"),
        ("transition-duration", "150ms")]),
    ("transition-none", [("transition-property", "none")])]

def static : Utility where
  name := "static"
  priority := .exactStatic
  staticRoots := staticTable.map Prod.fst
  compile candidate _ :=
    match candidate.reading with
    | .static root =>
        (staticTable.lookup root).map fun declarations =>
          declarations.map fun entry => Sheet.Node.declare entry.1 entry.2
    | _ => none

end AtomicCss.Utility
