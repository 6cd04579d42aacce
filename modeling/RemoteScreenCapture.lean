import RemoteScreenCapture.Oversized
import RemoteScreenCapture.Storage
import RemoteScreenCapture.Backlog
import RemoteScreenCapture.EndToEnd
import RemoteScreenCapture.Table
import RemoteScreenCapture.Calls
import RemoteScreenCapture.ParseCall
import RemoteScreenCapture.Verdicts
import RemoteScreenCapture.ClientRun
import RemoteScreenCapture.FileName
import RemoteScreenCapture.Isolation
import RemoteScreenCapture.Armed
import RemoteScreenCapture.Resources
import RemoteScreenCapture.Accepting
import RemoteScreenCapture.ScreenGrabber
import RemoteScreenCapture.CommandLine
import RemoteScreenCapture.Inflates
import RemoteScreenCapture.PngWriter
import RemoteScreenCapture.PngFile
import RemoteScreenCapture.Pictures
import RemoteScreenCapture.ManyClients
