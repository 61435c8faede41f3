import GoSmpp.Utf8
import GoSmpp.Transform
import GoSmpp.Charmap
import GoSmpp.Latin1
import GoSmpp.Pdutext.ISO88591
