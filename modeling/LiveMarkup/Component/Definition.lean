import LiveMarkup.Error
import LiveMarkup.Text.Scan

/-!
# Component definitions

A definition file has a `<template>` block and may have a `<style>` and a `<script>` block, in any
order. `Definition.parse` takes the first template block out of the text and looks for the other two
in what is left, so blocks inside the template belong to the template.  `Definition.load?` reads the
contents of a file.
-/

namespace LiveMarkup

/-- The parts of a component that a definition file gives. -/
structure Definition where
  template : String
  /-- The style sheet, empty if there is none. -/
  style : String
  script : Option String
  deriving Repr, DecidableEq

/-- What stands before, inside and after the first block between two marks. -/
def cutBlock? (start stop s : List Char) : Option (List Char × List Char × List Char) :=
  match splitAt? start s with
  | none => none
  | some (before, r) => (splitAt? stop r).map fun ia => (before, ia.1, ia.2)

/-- What stands inside the first block with a tag, whose opening tag may have attributes. -/
def tagBlock? (tag s : List Char) : Option (List Char) :=
  match splitAt? ('<' :: tag) s with
  | none => none
  | some (_, r) =>
    match splitAt? ['>'] r with
    | none => none
    | some (_, r) => (splitAt? ('<' :: '/' :: tag ++ ['>']) r).map Prod.fst

namespace Definition

/-- The blocks of a definition text. -/
def parse (text : String) : Except LoaderError Definition :=
  match cutBlock? "<template>".toList "</template>".toList text.toList with
  | none => .error .noTemplate
  | some (before, inner, after) =>
    let outside := before ++ after
    .ok {
      template := String.ofList inner
      style := String.ofList ((tagBlock? "style".toList outside).getD [])
      script := (tagBlock? "script".toList outside).map String.ofList }

/-- The definition in a file, given the bytes of the file if it can be read.  There is none if the
bytes are no text or the text is no definition. -/
def load? (file : Option ByteArray) : Option Definition :=
  match file.bind String.fromUTF8? with
  | none => none
  | some text => (parse text).toOption

end Definition

end LiveMarkup
