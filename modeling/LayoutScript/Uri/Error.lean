import LayoutScript.Text.Quoted

/-! Why a text is no URI of a file. -/
namespace LayoutScript

inductive UriCause where
  | controlByte
  | missingScheme
  | colonInFirstName
  | escape (bytes : List UInt8)
  | hostByte (b : UInt8)
  | hostNumber (bytes : List UInt8)
  | openBracket
  | user
  deriving DecidableEq, Repr

inductive UriError where
  | malformed (uri : List UInt8) (cause : UriCause)
  | scheme (name : List UInt8)
  | path (cause : UriCause)
  deriving DecidableEq, Repr

def UriCause.message : UriCause → String
  | .controlByte => "net/url: invalid control character in URL"
  | .missingScheme => "missing protocol scheme"
  | .colonInFirstName => "first path segment in URL cannot contain colon"
  | .escape bytes => "invalid URL escape " ++ Text.Quoted.ofBytes bytes
  | .hostByte b => "invalid character " ++ Text.Quoted.ofBytes [b] ++ " in host name"
  | .hostNumber bytes => "invalid port " ++ Text.Quoted.ofBytes bytes ++ " after host"
  | .openBracket => "missing ']' in host"
  | .user => "net/url: invalid userinfo"

def UriError.message : UriError → String
  | .malformed uri cause =>
    "invalid URI: parse " ++ Text.Quoted.ofBytes uri ++ ": " ++ cause.message
  | .scheme name => "unsupported scheme " ++ Text.Quoted.ofBytes name ++ " (must be file)"
  | .path cause => "cannot unescape path: " ++ cause.message

end LayoutScript
